import Xv6.FsBooks
import Xv6.FsNames

/- The file system over whole runs of calls.

   1. Between calls the places of open files are pinned (`Tidy`): what is noted of them is the
      type of the inode and, for a file, its bytes; a file that is open for writing is no
      directory.
   2. Each call keeps the disk well-formed. The references that the tables hold
      (`Books`) are those that keep the pinned places in use.
   3. So after any sequence of calls the free map, the slots and the sizes of all inodes
      agree, directories are maps, a block belongs to one slot of one inode, and no free block
      is freed (`disk_stays_wellFormed`, `blocks_have_one_owner`, `no_free_block_is_freed`).
   4. An open file is an array of bytes: `read` returns a stretch of it, `write` replaces one,
      and no other call changes it (`open_files_are_byte_arrays`). -/
namespace Xv6.Fs
open Function List Bits ByteBlock Log Command Transition Tally
open BitVec (ofNat)

variable {path : Option (List Byte)} {x : File}
variable {α β : Type} {s t u : Kernel} {sb : Superblock} {F F' : Pins} {σ : Shape} {e ip : Ip} {f : Fp} {p : Pp}
  {k : Shape} {y : Fp → Int} {v : Half × List Byte} {src : List Byte}

/-! ## Open files -/

structure Tidy (sb : Superblock) (F : Pins) (s : Kernel) : Prop extends Sound sb F s where
  covers : ∀ f e, held (s.file f) = some e → ∃ v, F e = some v ∧ ((s.file f).writable = true → v.1 ≠ T_DIR)
  backed : ∀ e, F e ≠ none → ∃ f, held (s.file f) = some e

/-- The same files are open for the same inodes, and for writing or not. -/
structure SameHeld (s t : Kernel) : Prop where
  held : ∀ f, held (t.file f) = held (s.file f)
  writable : ∀ f, Fs.held (s.file f) ≠ none → (t.file f).writable = (s.file f).writable

theorem SameHeld.refl (s : Kernel) : SameHeld s s := ⟨fun _ => rfl, fun _ _ => rfl⟩

theorem SameHeld.trans (h : SameHeld s t) (h' : SameHeld t u) : SameHeld s u where
  held f := (h'.held f).trans (h.held f)
  writable f hf := (h'.writable f (by rw [h.held]; exact hf)).trans (h.writable f hf)

theorem SameHeld.of_file (h : t.file = s.file) : SameHeld s t := ⟨fun f => by rw [h], fun f _ => by rw [h]⟩

theorem SameHeld.setFile (hheld : Fs.held x = Fs.held (s.file f))
    (hw : Fs.held (s.file f) ≠ none → x.writable = (s.file f).writable) : SameHeld s (s.setFile f x) where
  held f' := by
    rw [file_setFile]
    split
    · rename_i heq
      rw [heq, hheld]
    · rfl
  writable f' hf' := by
    rw [file_setFile]
    split
    · rename_i heq
      subst heq
      exact hw hf'
    · rfl

theorem Tidy.same (h : Tidy sb F s) (hs : Sound sb F t) (hfile : SameHeld s t) : Tidy sb F t where
  toSound := hs
  covers f e he := by
    rw [hfile.held] at he
    obtain ⟨v, hv, hw⟩ := h.covers f e he
    refine ⟨v, hv, fun hwritable => hw ?_⟩
    rw [← hfile.writable f (by rw [he]; exact Option.some_ne_none e)]
    exact hwritable
  backed e he := by
    obtain ⟨f, hf⟩ := h.backed e he
    exact ⟨f, (hfile.held f).trans hf⟩

theorem Sound.setFile (h : Sound sb F s) : Sound sb F (s.setFile f x) := h.congr rfl rfl rfl

theorem Tidy.fine (h : Tidy sb F s) (ht : Fine sb F s σ t) : Tidy sb F t := h.same ht.sound (.of_file ht.does.file)

theorem held_ne_inode (h : x.type ≠ .inode) : held x = none := if_neg h

theorem Tidy.guards (h : Tidy sb F s) : Guards F (rest.plus (tally (opens s))) where
  nonneg := add_nonneg le_rfl (tally_nonneg _)
  pinned e he := by
    obtain ⟨f, hf⟩ := h.backed e he
    have : 0 < tally (opens s) e := tally_pos (i := f) hf
    change 1 ≤ (0 : Int) + tally (opens s) e
    omega

theorem Books.shape_rest (hb : Books s rest 0) : Fs.shape s = (rest.plus (tally (opens s))).plus (tally (cwds s)) := by
  rw [hb.shape, Shape.plus_plus, tabled]

theorem Tidy.guards_shape (h : Tidy sb F s) (hb : Books s rest 0) : Guards F (shape s) := by
  rw [hb.shape_rest]
  exact h.guards.plus (tally_nonneg _)

theorem runs_modify {P : Prop} {g : Kernel → Kernel} {Q : Unit → Kernel → Prop} (hQ : Q () (g s)) :
    Runs P (modify g) Q s := hQ

theorem runs_setFile {P : Prop} {Q : Unit → Kernel → Prop} (hQ : Q () (s.setFile f x)) :
    Runs P (setFile f x) Q s := hQ

theorem runs_setProc {P : Prop} {x : Proc} {Q : Unit → Kernel → Prop} (hQ : Q () (s.setProc p x)) :
    Runs P (setProc p x) Q s := hQ

/-! ## Closing -/

/-- Only the places of open files are pinned. -/
noncomputable def Pins.only (F : Pins) (s : Kernel) : Pins :=
  open Classical in fun e => if ∃ f, held (s.file f) = some e then F e else none

theorem Pins.only_le (he : F.only s e = some v) : F e = some v := by
  unfold Pins.only at he
  split at he
  · exact he
  · cases he

theorem Pins.only_of_held (he : held (s.file f) = some e) : F.only s e = F e := if_pos ⟨f, he⟩

/-- Fewer places are pinned. -/
def Less (F' F : Pins) : Prop := ∀ e v, F' e = some v → F e = some v

theorem Less.refl (F : Pins) : Less F F := fun _ _ => id

theorem Less.trans {F'' : Pins} (h : Less F'' F') (h' : Less F' F) : Less F'' F := fun e v hv => h' e v (h e v hv)

theorem Tidy.closed (h : Tidy sb F s) (hx : held x = none) (ht : Sound sb (F.only t) t)
    (hfile : t.file = (s.setFile f x).file) : Tidy sb (F.only t) t where
  toSound := ht
  covers f' e he := by
    have hne : f' ≠ f := by
      rintro rfl
      rw [hfile, file_setFile, if_pos rfl, hx] at he
      cases he
    have hsame : t.file f' = s.file f' := by rw [hfile, file_setFile, if_neg hne]
    rw [Pins.only_of_held he, hsame]
    rw [hsame] at he
    exact h.covers f' e he
  backed e he := by
    unfold Pins.only at he
    by_contra hnone
    rw [if_neg hnone] at he
    exact he rfl

theorem tidy_fileclose (hb : Books s k y) (hk : 0 ≤ k.refs) (h : Tidy sb F s) :
    Runs False (fileclose f) (fun _ t => ∃ F', Less F' F ∧ Tidy sb F' t) s := by
  refine .seq (runs_gets (.ite (fun _ => runs_fail id (by rintro ⟨⟩)) fun _ => .ite (fun _ => ?_) fun _ => .seq
    (runs_setFile ?_)))
  · exact ⟨F, .refl F, h.same h.toSound.setFile (.setFile rfl fun _ => rfl)⟩
  · -- the last reference
    set x : File := { s.file f with ref := 0, type := .none } with hx
    have hnone : held x = none := rfl
    have hless : Less (F.only (s.setFile f x)) F := fun e v hv => Pins.only_le hv
    have hsound : Sound sb (F.only (s.setFile f x)) (s.setFile f x) := h.toSound.setFile.mono hless
    have htidy := h.closed hnone hsound rfl
    cases htype : (s.file f).type with
    | inode =>
      have hheld : held (s.file f) = some (s.file f).ip := if_pos htype
      -- the reference of the file is in hand
      have hshape : shape (s.setFile f x) = (k.plus (tabled (s.setFile f x))).plus (Pi.single (s.file f).ip 1) := by
        change shape s = _
        rw [hb.shape, Shape.plus_plus, tabled, tabled, opens_setFile, tally_update, hnone, point_none]
        change k.plus (tally (opens s) + tally (cwds s)) = k.plus (tally (opens s) + (0 - point (held (s.file f))) +
          tally (cwds s) + Pi.single (s.file f).ip 1)
        rw [hheld, point_some]
        exact congrArg (Shape.plus · k) (by abel)
      have hG : Guards (F.only (s.setFile f x)) (k.plus (tabled (s.setFile f x))) := by
        refine ⟨add_nonneg hk (add_nonneg (tally_nonneg _) (tally_nonneg _)), fun e he => ?_⟩
        obtain ⟨f', hf'⟩ := htidy.backed e he
        have h₁ : 0 < tally (opens (s.setFile f x)) e := tally_pos (i := f') hf'
        have h₂ := tally_nonneg (cwds (s.setFile f x)) e
        have h₃ := hk e
        simp only [Pi.zero_apply] at h₂ h₃
        change 1 ≤ k.refs e + (tally (opens (s.setFile f x)) e + tally (cwds (s.setFile f x)) e)
        omega
      have hfine : Fine sb (F.only (s.setFile f x)) (s.setFile f x)
          ((k.plus (tabled (s.setFile f x))).plus (Pi.single (s.file f).ip 1)) (s.setFile f x) :=
        ⟨(Does.refl _).cast hshape, hsound⟩
      refine fine_beginOp hfine fun t h => fine_iput hG.op (one_le_single _) h fun t h => ?_
      exact Runs.imp (fine_endOp h fun t h => runs_pure h) fun _ t ht => ⟨_, hless, htidy.fine ht⟩
    | pipe => exact ⟨_, hless, htidy⟩
    | none => exact ⟨_, hless, htidy⟩

/-! ## Reading and writing -/

theorem Sound.noted (h : Sound sb F t) (hv : F e = some v) (hplain : Plain v.1) :
    Plain (onDisk sb t e).type ∧ contents t.blk (onDisk sb t e) = v.2 := by
  have hnote := (h.pinned e v hv).2.2
  have htype : (onDisk sb t e).type = v.1 := congrArg Prod.fst hnote
  have hbytes := congrArg Prod.snd hnote
  rw [note, htype, if_pos hplain] at hbytes
  exact ⟨htype ▸ hplain, hbytes⟩

theorem tidy_fileread {n : Word} {piped : Option (List Byte)} (h : Tidy sb F s) :
    Runs False (fileread f n piped) (fun r t => (Tidy sb F t ∧ SameHeld s t) ∧
      ∀ e v, held (s.file f) = some e → F e = some v → Plain v.1 → (s.file f).readable = true →
        r = reads v.2 (s.file f).off n ∧
        t.file f = { s.file f with off := (s.file f).off + ofNat 32 (r.getD []).length }) s := by
  refine .seq (runs_gets (.ite (fun hno => ⟨⟨h, .refl s⟩, fun e v _ _ _ hread => ?_⟩) fun _ => ?_))
  · rw [hno] at hread
    cases hread
  cases htype : (s.file f).type with
  | pipe =>
    refine ⟨⟨h, .refl s⟩, fun e v he => ?_⟩
    rw [held_ne_inode (by rw [htype]; rintro ⟨⟩)] at he
    cases he
  | none => exact runs_fail id (by rintro ⟨⟩)
  | inode =>
    have hheld : held (s.file f) = some (s.file f).ip := if_pos htype
    refine .seq (((sound_ilock h.toSound).and_then (then_ilock _)).imp ?_)
    rintro _ t ⟨⟨ht, hlocked⟩, -, hdoes⟩
    -- what `readi` returns
    have hread : Runs False (readi (s.file f).ip (s.file f).off n)
        (fun r u => (Sound sb F u ∧ (u.inode (s.file f).ip).lock = true) ∧
        ∀ v, F (s.file f).ip = some v → Plain v.1 → r = reads v.2 (s.file f).off n) t := by
      obtain ⟨v, hv, -⟩ := h.covers f _ hheld
      by_cases hplain : Plain v.1
      · obtain ⟨hdisk, hbytes⟩ := ht.noted hv hplain
        refine (sound_readi_inode ht (ht.live hlocked.lock) hdisk.2).imp ?_
        rintro r _ ⟨rfl, rfl⟩
        refine ⟨⟨ht, hlocked.lock⟩, fun w hw _ => ?_⟩
        rw [hv] at hw
        cases hw
        rw [hbytes]
      · refine (sound_readi ht hlocked.lock).imp fun r u hu => ⟨hu, fun w hw hplain' => ?_⟩
        rw [hv] at hw
        cases hw
        exact absurd hplain' hplain
    refine .seq ((hread.and_then (quiet_readi _ _ _ t)).imp ?_)
    rintro r u ⟨⟨⟨hu, hlock⟩, hr⟩, hquiet⟩
    have hfile : u.file = s.file := hquiet.file.trans hdoes.file
    set x : File := { s.file f with off := (s.file f).off + ofNat 32 (r.getD []).length } with hx
    rw [← htype]
    refine .seq (runs_setFile (.seq (((sound_iunlock hu.setFile).and_then (then_iunlock _)).imp ?_)))
    rintro _ w ⟨hw, -, hunlock⟩
    have hself : w.file f = x := by
      rw [hunlock.file, file_setFile, if_pos rfl]
    have hsame : SameHeld s w := by
      refine (SameHeld.of_file hfile).trans ((SameHeld.setFile ?_ fun _ => ?_).trans (.of_file hunlock.file))
      · rw [hfile]
        rfl
      · rw [hfile]
    refine runs_pure ⟨⟨h.same hw hsame, hsame⟩, fun e v he hv hplain _ => ⟨?_, hself⟩⟩
    rw [hheld, Option.some.injEq] at he
    subst he
    exact hr v hv hplain

theorem Pins.write_of_ne {e' : Ip} {off : Nat} (hne : e' ≠ e) : F.write e off src e' = F e' := update_of_ne hne ..

theorem Pins.write_self {off : Nat} (hv : F e = some v) : F.write e off src e = some (v.1, splice v.2 off src) := by
  rw [Pins.write, update_self, hv]
  rfl

theorem Pins.write_nil {off : Nat} : F.write e off [] = F := by
  funext e'
  rw [Pins.write, update_apply]
  split
  · rename_i heq
    subst heq
    simp only [splice_nil]
    exact Option.map_id'
  · rfl

theorem Pins.write_write {off : Nat} (hv : F e = some v) (hoff : off ≤ v.2.length) (a b : List Byte) :
    (F.write e off a).write e (off + a.length) b = F.write e off (a ++ b) := by
  funext e'
  by_cases hne : e' = e
  · subst hne
    rw [Pins.write_self (Pins.write_self hv), Pins.write_self hv, splice_splice hoff]
  · rw [Pins.write_of_ne hne, Pins.write_of_ne hne, Pins.write_of_ne hne]

theorem Tidy.write {off : Nat} (h : Tidy sb F s) (ht : Sound sb (F.write e off src) t) (hfile : SameHeld s t) :
    Tidy sb (F.write e off src) t where
  toSound := ht
  covers f e' he := by
    rw [hfile.held] at he
    obtain ⟨v, hv, hw⟩ := h.covers f e' he
    have hw' : (t.file f).writable = true → v.1 ≠ T_DIR := by
      rw [hfile.writable f (by rw [he]; exact Option.some_ne_none e')]
      exact hw
    by_cases hne : e' = e
    · subst hne
      exact ⟨_, Pins.write_self hv, hw'⟩
    · exact ⟨v, (Pins.write_of_ne hne).trans hv, hw'⟩
  backed e' he := by
    have he' : F e' ≠ none := by
      intro hnone
      rw [Pins.write, update_apply] at he
      split at he
      · rename_i heq
        subst heq
        rw [hnone] at he
        exact he rfl
      · exact he hnone
    obtain ⟨f, hf⟩ := h.backed e' he'
    exact ⟨f, (hfile.held f).trans hf⟩

theorem runs_writeEnd {m : Unit → M Bool} {Q : Bool → Kernel → Prop} {e : Ip} (h : Sound sb F t)
    (hQ : ∀ u, Sound sb F u → u.file = (t.setFile f x).file → Runs False (m ()) Q u) :
    Runs False (setFile f x >>= fun _ => iunlock e >>= fun _ => endOp >>= m) Q t := by
  refine .seq (runs_setFile (.seq (((sound_iunlock h.setFile).and_then (then_iunlock _)).imp ?_)))
  rintro _ u ⟨hu, -, hunlock⟩
  exact .seq (hQ _ (hu.congr rfl rfl rfl) hunlock.file)

theorem runs_writeStart {m : Unit → M Bool} {Q : Bool → Kernel → Prop} {e : Ip} (h : Sound sb F s)
    (hQ : ∀ t, Sound sb F t → (t.inode e).lock = true → t.file = s.file → Runs False (m ()) Q t) :
    Runs False (beginOp >>= fun _ => ilock e >>= m) Q s := by
  refine .seq (.seq (runs_gets (.ite (fun _ => runs_fail id (by rintro ⟨⟩)) fun _ => .seq ?_)))
  have hop : Sound sb F { s with outstanding := s.outstanding + 1 } := h.congr rfl rfl rfl
  refine ((sound_ilock hop).and_then (then_ilock e)).imp ?_
  rintro _ t ⟨⟨ht, hlocked⟩, -, hdoes⟩
  exact hQ t ht hlocked.lock hdoes.file

theorem held_eq_some (h : held x = some e) : x.type = .inode ∧ x.ip = e := by
  unfold held at h
  split at h
  · rename_i htype
    exact ⟨htype, Option.some.inj h⟩
  · cases h

theorem SameHeld.seek {off : Word} (ht : t.file = s.file) (hu : u.file = (t.setFile f { s.file f with off }).file) :
    SameHeld s u ∧ u.file f = { s.file f with off } := by
  refine ⟨(SameHeld.of_file ht).trans ((SameHeld.setFile ?_ fun _ => ?_).trans (.of_file hu)), ?_⟩
  · rw [ht]
    rfl
  · rw [ht]
  · rw [hu, file_setFile, if_pos rfl]

theorem Tidy.unwritten (h : Tidy sb F t) (hf : t.file f = s.file f) :
    Tidy sb (F.write e (s.file f).off.toNat (src.take 0)) t ∧
      t.file f = { s.file f with off := (s.file f).off + ofNat 32 0 } := by
  rw [take_zero, Pins.write_nil, hf, show ofNat 32 0 = 0#32 from rfl, BitVec.add_zero]
  exact ⟨h, rfl⟩

/-- The loop of `filewrite`: the bytes are written up to where a `writei` has failed. -/
theorem tidy_filewriteFrom {fuel : Nat} (h : Tidy sb F s) (he : held (s.file f) = some e) (hv : F e = some v)
    (hplain : Plain v.1) (hfuel : src.length ≤ fuel) :
    Runs False (filewriteFrom f fuel src) (fun r t => ∃ n, n ≤ src.length ∧ (r = true → n = src.length) ∧
      SameHeld s t ∧ Tidy sb (F.write e (s.file f).off.toNat (src.take n)) t ∧
      t.file f = { s.file f with off := (s.file f).off + ofNat 32 n }) s := by
  induction fuel generalizing s F v src with
  | zero => exact ⟨0, Nat.zero_le _, fun _ => by omega, .refl s, h.unwritten rfl⟩
  | succ fuel ih =>
    refine .ite (fun hnil => ⟨0, Nat.zero_le _, fun _ => by rw [hnil]; rfl, .refl s, h.unwritten rfl⟩) fun hne =>
      .seq (runs_gets ?_)
    obtain ⟨htype, rfl⟩ := held_eq_some he
    refine runs_writeStart h.toSound fun t ht hlock hfile => .seq ?_
    obtain ⟨hdisk, hbytes⟩ := ht.noted hv hplain
    set n1 := min src.length maxWrite with hn1
    have hmax : maxWrite = 1536 := rfl
    have hpos : 0 < n1 := by
      have := length_pos_of_ne_nil hne
      omega
    have hlen : (src.take n1).length = n1 := by
      rw [length_take]
      omega
    refine ((sound_writei_plain ht hlock hdisk (by omega)).and_then (quiet_writei _ _ _ t)).imp ?_
    rintro r u ⟨hr, hquiet⟩
    have hufile : u.file = s.file := hquiet.file.trans hfile
    rcases hr with ⟨rfl, rfl⟩ | ⟨rfl, hoff, hend, hu, -⟩
    · refine runs_writeEnd ht fun w hw hwfile => ?_
      obtain ⟨hsame, hself⟩ := SameHeld.seek hufile hwfile
      refine ⟨0, Nat.zero_le _, by rintro ⟨⟩, hsame, (h.same hw hsame).unwritten ?_⟩
      rw [hself, show ofNat 32 ((none : Option Nat).getD 0) = 0#32 from rfl, BitVec.add_zero]
    · refine runs_writeEnd hu fun w hw hwfile => .ite (fun hbad => ?_) fun _ => ?_
      · exact runs_fail id (by rintro ⟨⟩)
      obtain ⟨hsame, hself⟩ := SameHeld.seek hufile hwfile
      rw [hbytes] at hoff
      rw [Option.getD_some, hlen] at hself
      have hnext : (w.file f).off.toNat = (s.file f).off.toNat + n1 := by
        have hofNat : (ofNat 32 n1).toNat = n1 := by
          rw [BitVec.toNat_ofNat]
          exact Nat.mod_eq_of_lt (by omega)
        rw [hself, BitVec.toNat_add, hofNat]
        refine Nat.mod_eq_of_lt ?_
        rw [hlen] at hend
        simp only [MAXFILE, NDIRECT, NINDIRECT, BSIZE] at hend
        omega
      have hdrop : (src.drop n1).length = src.length - n1 := length_drop ..
      refine (ih (h.write hw hsame) ((hsame.held f).trans he) (Pins.write_self hv) hplain (by omega)).imp ?_
      rintro r' x ⟨n, hn, hall, hsame', hx, hxf⟩
      have hboth := Pins.write_write hv hoff (src.take n1) ((src.drop n1).take n)
      rw [hlen, ← take_add] at hboth
      rw [hnext, hboth] at hx
      refine ⟨n1 + n, by omega, fun hr' => ?_, hsame.trans hsame', hx, ?_⟩
      · have := hall hr'
        omega
      · rw [hxf, hself]
        simp only [BitVec.ofNat_add, BitVec.add_assoc]

theorem tidy_filewriteFrom_dev {fuel : Nat} (h : Tidy sb F s) (he : held (s.file f) = some e) (hv : F e = some v)
    (hdev : v.1 = T_DEV) : Runs False (filewriteFrom f fuel src) (fun _ t => SameHeld s t ∧ Tidy sb F t) s := by
  induction fuel generalizing s src with
  | zero => exact ⟨.refl s, h⟩
  | succ fuel ih =>
    refine .ite (fun _ => ⟨.refl s, h⟩) fun _ => .seq (runs_gets ?_)
    obtain ⟨htype, rfl⟩ := held_eq_some he
    refine runs_writeStart h.toSound fun t ht hlock hfile => .seq ?_
    have hdisk : (onDisk sb t (s.file f).ip).type = T_DEV := (congrArg Prod.fst (ht.pinned _ v hv).2.2).trans hdev
    refine ((sound_writei_dev ht hlock hdisk).and_then (quiet_writei _ _ _ t)).imp ?_
    rintro r u ⟨⟨hu, -⟩, hquiet⟩
    refine runs_writeEnd hu fun w hw hwfile => ?_
    obtain ⟨hsame, -⟩ := SameHeld.seek (hquiet.file.trans hfile) hwfile
    cases r with
    | none => exact ⟨hsame, h.same hw hsame⟩
    | some r =>
      refine .ite (fun _ => runs_fail id (by rintro ⟨⟩)) fun _ => ?_
      exact (ih (h.same hw hsame) ((hsame.held f).trans he)).imp fun _ x hx => ⟨hsame.trans hx.1, hx.2⟩

/-- What `filewrite` of `src` to file `x` has done to what is noted: `n` of the bytes are in the file. -/
structure Splices (F : Pins) (x : File) (src : List Byte) (n : Nat) (F' : Pins) : Prop where
  other : ∀ e, held x ≠ some e → F' e = F e
  type : ∀ e v, held x = some e → F e = some v → ∃ bytes, F' e = some (v.1, bytes)
  here : ∀ e v, held x = some e → F e = some v → x.writable = true → Plain v.1 →
    F' e = some (v.1, splice v.2 x.off.toNat (src.take n))
  same : (∀ e v, held x = some e → F e = some v → x.writable = true → ¬Plain v.1) → F' = F

theorem Splices.none {n : Nat} (h : ∀ e v, held x = some e → F e = some v → x.writable = true → ¬Plain v.1) :
    Splices F x src n F where
  other _ _ := rfl
  type _ v _ hv := ⟨v.2, hv⟩
  here e v he hv hw hplain := absurd hplain (h e v he hv hw)
  same _ := rfl

theorem tidy_filewrite {piped : Bool} (h : Tidy sb F s) :
    Runs False (filewrite f src piped) (fun r t => SameHeld s t ∧ ∃ n F', Tidy sb F' t ∧ Splices F (s.file f) src n F' ∧
      ∀ e v, held (s.file f) = some e → F e = some v → Plain v.1 → (s.file f).writable = true →
        n ≤ src.length ∧ (r = true → n = src.length) ∧
        t.file f = { s.file f with off := (s.file f).off + ofNat 32 n }) s := by
  refine .seq (runs_gets (.ite (fun hno => ⟨.refl s, 0, F, h, .none fun e v _ _ hw => ?_, fun e v _ _ _ hw => ?_⟩)
    fun hyes => ?_))
  · rw [hno] at hw
    cases hw
  · rw [hno] at hw
    cases hw
  cases htype : (s.file f).type with
  | pipe =>
    have hnone : held (s.file f) = none := held_ne_inode (by rw [htype]; rintro ⟨⟩)
    refine ⟨.refl s, 0, F, h, .none fun e v he => ?_, fun e v he => ?_⟩
    · rw [hnone] at he
      cases he
    · rw [hnone] at he
      cases he
  | none => exact runs_fail id (by rintro ⟨⟩)
  | inode =>
    have hwritable : (s.file f).writable = true := Bool.not_eq_false _ ▸ hyes
    have hheld : held (s.file f) = some (s.file f).ip := if_pos htype
    obtain ⟨v, hv, hdir⟩ := h.covers f _ hheld
    have hunique : ∀ {e w}, held (s.file f) = some e → F e = some w → e = (s.file f).ip ∧ w = v := by
      intro e w he hw
      rw [hheld, Option.some.injEq] at he
      subst he
      rw [hv, Option.some.injEq] at hw
      exact ⟨rfl, hw.symm⟩
    by_cases hplain : Plain v.1
    · refine (tidy_filewriteFrom h hheld hv hplain (le_refl _)).imp ?_
      rintro r t ⟨n, hn, hall, hsame, ht, hself⟩
      refine ⟨hsame, n, _, ht, ⟨fun e he => Pins.write_of_ne ?_, fun e w he hw => ?_, fun e w he hw _ _ => ?_,
        fun hnone => absurd hplain (hnone _ v hheld hv hwritable)⟩, fun e w he hw _ _ => ⟨hn, hall, hself⟩⟩
      · rintro rfl
        exact he hheld
      · obtain ⟨rfl, rfl⟩ := hunique he hw
        exact ⟨_, Pins.write_self hv⟩
      · obtain ⟨rfl, rfl⟩ := hunique he hw
        exact Pins.write_self hv
    · have hdev : v.1 = T_DEV := by
        by_contra hdev
        exact hplain ⟨hdir hwritable, hdev⟩
      refine (tidy_filewriteFrom_dev h hheld hv hdev).imp fun r t ht => ?_
      refine ⟨ht.1, 0, F, ht.2, .none fun e w he hw _ => ?_, fun e w he hw hplain' => ?_⟩
      · obtain ⟨rfl, rfl⟩ := hunique he hw
        exact hplain
      · obtain ⟨rfl, rfl⟩ := hunique he hw
        exact absurd hplain' hplain

theorem tidy_filestat (h : Tidy sb F s) : Runs False (filestat f) (fun _ t => Tidy sb F t) s := by
  refine .seq (runs_gets ?_)
  cases htype : (s.file f).type with
  | pipe => exact h
  | none => exact h
  | inode =>
    refine .seq (((sound_ilock h.toSound).and_then (then_ilock _)).imp ?_)
    rintro _ t ⟨⟨ht, -⟩, -, hdoes⟩
    refine .seq (((sound_iunlock ht).and_then (then_iunlock _)).imp ?_)
    rintro _ u ⟨hu, -, hdoes'⟩
    exact h.same hu (.of_file (hdoes'.file.trans hdoes.file))

/-! ## The tables of files and processes -/

/-- Nothing has been done to inodes. -/
structure Aside (s t : Kernel) : Prop extends SameHeld s t where
  disk : t.blk = s.blk
  super : t.sb = s.sb
  inode : t.inode = s.inode
  shape : Fs.shape t = Fs.shape s

theorem Aside.refl (s : Kernel) : Aside s s := ⟨.refl s, rfl, rfl, rfl, rfl⟩

theorem Aside.trans (h : Aside s t) (h' : Aside t u) : Aside s u :=
  ⟨h.toSameHeld.trans h'.toSameHeld, h'.disk.trans h.disk, h'.super.trans h.super, h'.inode.trans h.inode,
    h'.shape.trans h.shape⟩

theorem Aside.setFile (hheld : Fs.held x = Fs.held (s.file f))
    (hw : Fs.held (s.file f) ≠ none → x.writable = (s.file f).writable) : Aside s (s.setFile f x) :=
  ⟨.setFile hheld hw, rfl, rfl, rfl, rfl⟩

theorem Aside.setProc {x : Proc} : Aside s (s.setProc p x) := ⟨.of_file rfl, rfl, rfl, rfl, rfl⟩

theorem Tidy.aside (h : Tidy sb F s) (ha : Aside s t) : Tidy sb F t :=
  h.same (h.toSound.congr ha.disk ha.super ha.inode) ha.toSameHeld

/-- A file that is not in use is of no type. -/
def Closed (s : Kernel) : Prop := ∀ f, (s.file f).ref = 0 → (s.file f).type = .none

theorem aside_filealloc (hc : Closed s) : Runs False filealloc
    (fun a t => Aside s t ∧ Closed t ∧ ∀ f, a = some f → held (t.file f) = none) s := by
  refine .seq (runs_gets ?_)
  dsimp only [id]
  split
  · rename_i f hf
    have hzero : (s.file f).ref = 0 := by simpa using List.find?_some hf
    refine ⟨.setFile rfl fun _ => rfl, fun f' hf' => ?_, ?_⟩
    · rw [file_setFile] at hf' ⊢
      split at hf'
      · cases hf'
      · rename_i hne
        rw [if_neg hne]
        exact hc f' hf'
    · rintro f' ⟨⟩
      rw [file_setFile, if_pos rfl]
      refine held_ne_inode ?_
      rw [hc f hzero]
      rintro ⟨⟩
  · exact ⟨.refl s, hc, by rintro f ⟨⟩⟩

theorem aside_filedup : Runs False (filedup f) (fun a t => a = f ∧ Aside s t) s :=
  .seq (runs_gets (.ite (fun _ => runs_fail id (by rintro ⟨⟩)) fun _ => ⟨rfl, .setFile rfl fun _ => rfl⟩))

theorem aside_fileclose (hf : held (s.file f) = none) : Runs False (fileclose f) (fun _ t => Aside s t) s := by
  refine .seq (runs_gets (.ite (fun _ => runs_fail id (by rintro ⟨⟩)) fun _ => .ite (fun _ => ?_) fun _ => .seq ?_))
  · exact .setFile rfl fun _ => rfl
  · have hset : Aside s (s.setFile f { s.file f with ref := 0, type := .none }) :=
      .setFile hf.symm fun hne => absurd hf hne
    cases htype : (s.file f).type with
    | inode =>
      rw [held, if_pos htype] at hf
      cases hf
    | pipe => exact hset
    | none => exact hset

theorem aside_setOfile {fd : Fin NOFILE} {o : Option Fp} :
    Runs False (setOfile p fd o) (fun _ t => Aside s t ∧ t.file = s.file) s :=
  .seq (runs_gets ⟨.setProc, rfl⟩)

theorem aside_fdalloc : Runs False (fdalloc p f) (fun _ t => Aside s t ∧ t.file = s.file) s := by
  refine .seq (runs_gets ?_)
  split
  · exact aside_setOfile.bind fun _ t ht => ht
  · exact ⟨.refl s, rfl⟩

theorem runs_argfd {fd : Int} {m : Option (Fin NOFILE × Fp) → M β} {R : β → Kernel → Prop}
    (hnone : Runs False (m none) R s)
    (hsome : ∀ (fd' : Fin NOFILE) f, fd = (fd'.val : Int) → (s.proc p).ofile fd' = some f →
      Runs False (m (some (fd', f))) R s) :
    Runs False (argfd p fd >>= m) R s := by
  refine .seq (.seq (runs_gets ?_))
  split
  · rename_i hfd
    cases hofile : (s.proc p).ofile ⟨fd.toNat, hfd.2⟩ with
    | none => exact hnone
    | some f => exact hsome _ f (Int.toNat_of_nonneg hfd.1).symm hofile
  · exact hnone

theorem aside_flip : Runs False flip (fun _ t => Aside s t ∧ t.file = s.file) s :=
  .seq (runs_gets ⟨⟨.of_file rfl, rfl, rfl, rfl, rfl⟩, rfl⟩)

theorem aside_sysDup {fd : Int} : Runs False (sysDup p fd) (fun _ t => Aside s t) s := by
  refine runs_argfd (.refl s) fun fd f _ _ => aside_fdalloc.bind fun a t ht => ?_
  cases a with
  | none => exact ht.1
  | some _ => exact aside_filedup.bind fun _ u hu => ht.1.trans hu.2

theorem aside_pipealloc (hc : Closed s) : Runs False pipealloc
    (fun a t => Aside s t ∧ ∀ x, a = some x → held (t.file x.1) = none ∧ held (t.file x.2) = none) s := by
  refine (aside_filealloc hc).bind fun a t ht => ?_
  obtain ⟨hst, hct, hf0⟩ := ht
  cases a with
  | none => exact ⟨hst, by rintro x ⟨⟩⟩
  | some f0 =>
    have hf0 := hf0 f0 rfl
    refine (aside_filealloc hct).bind fun b u hu => ?_
    obtain ⟨htu, -, hf1⟩ := hu
    have hf0 : held (u.file f0) = none := (htu.held f0).trans hf0
    cases b with
    | none => exact (aside_fileclose hf0).bind fun _ v hv => runs_pure ⟨(hst.trans htu).trans hv, by rintro x ⟨⟩⟩
    | some f1 =>
      have hf1 := hf1 f1 rfl
      refine aside_flip.bind fun memory v hv => ?_
      have hsv := (hst.trans htu).trans hv.1
      have hf0 : held (v.file f0) = none := by rw [hv.2]; exact hf0
      have hf1 : held (v.file f1) = none := by rw [hv.2]; exact hf1
      refine .ite (fun _ => ?_) fun _ => ?_
      · set w := v.setFile f0 { v.file f0 with type := .pipe, readable := true, writable := false } with hw
        have hvw : Aside v w := .setFile hf0.symm fun hne => absurd hf0 hne
        have hf0' : held (w.file f0) = none := (hvw.held f0).trans hf0
        have hf1' : held (w.file f1) = none := (hvw.held f1).trans hf1
        refine .seq (runs_gets (.seq (runs_setFile (.seq (runs_gets (.seq (runs_setFile ?_)))))))
        have hwx : Aside w (w.setFile f1 { w.file f1 with type := .pipe, readable := false, writable := true }) :=
          .setFile hf1'.symm fun hne => absurd hf1' hne
        refine ⟨(hsv.trans hvw).trans hwx, ?_⟩
        rintro x ⟨⟩
        exact ⟨(hwx.held f0).trans hf0', (hwx.held f1).trans hf1'⟩
      · refine (aside_fileclose hf0).bind fun _ w hw => ?_
        refine (aside_fileclose ((hw.held f1).trans hf1)).bind fun _ x hx => ?_
        exact runs_pure ⟨(hsv.trans hw).trans hx, by rintro x ⟨⟩⟩

theorem aside_sysPipe {arg : Bool} (hc : Closed s) : Runs False (sysPipe p arg) (fun _ t => Aside s t) s := by
  refine .ite (fun _ => .refl s) fun _ => (aside_pipealloc hc).bind fun a t ht => ?_
  cases a with
  | none => exact ht.1
  | some x =>
    obtain ⟨rf, wf⟩ := x
    obtain ⟨hst, hfiles⟩ := ht
    obtain ⟨hrf, hwf⟩ := hfiles (rf, wf) rfl
    -- both files are closed when there is no descriptor
    have hback : ∀ {u}, Aside s u → u.file = t.file →
        Runs False (fileclose rf >>= fun _ => fileclose wf >>= fun _ => pure false) (fun _ t => Aside s t) u := by
      intro u hu hfile
      refine (aside_fileclose (by rw [hfile]; exact hrf)).bind fun _ v hv => ?_
      refine (aside_fileclose ((hv.held wf).trans (by rw [hfile]; exact hwf))).bind fun _ w hw => ?_
      exact runs_pure ((hu.trans hv).trans hw)
    refine aside_fdalloc.bind fun a u hu => ?_
    cases a with
    | none => exact hback (hst.trans hu.1) hu.2
    | some fd0 =>
      refine aside_fdalloc.bind fun b v hv => ?_
      cases b with
      | none =>
        refine aside_setOfile.bind fun _ w hw => ?_
        exact hback (((hst.trans hu.1).trans hv.1).trans hw.1) (hw.2.trans (hv.2.trans hu.2))
      | some _ => exact (hst.trans hu.1).trans hv.1

theorem aside_dupFd {np : Pp} {fd : Fin NOFILE} : Runs False (dupFd p np fd) (fun _ t => Aside s t) s := by
  refine .seq (runs_gets ?_)
  cases (s.proc p).ofile fd with
  | none => exact .refl s
  | some f => exact aside_filedup.bind fun _ t ht => aside_setOfile.imp fun _ u hu => ht.2.trans hu.1

theorem aside_wait : Runs False (wait p) (fun _ t => Aside s t) s := by
  refine .seq (runs_gets ?_)
  split
  · exact .refl s
  · exact .setProc

/-! ## Calls that give up inodes -/

/-- What is noted of a place that is pinned before and after is the same. -/
def Agree (F F' : Pins) : Prop := ∀ e v w, F e = some v → F' e = some w → w = v

theorem Less.agree (h : Less F' F) : Agree F F' := by
  intro e v w hv hw
  rw [h e w hw, Option.some.injEq] at hv
  exact hv

theorem Agree.refl (F : Pins) : Agree F F := (Less.refl F).agree

def Ends (sb : Superblock) (F : Pins) (t : Kernel) : Prop := ∃ F', Agree F F' ∧ Tidy sb F' t

theorem Tidy.ends (h : Tidy sb F t) : Ends sb F t := ⟨F, .refl F, h⟩

theorem tidy_sysClose {fd : Int} (hb : Books s rest 0) (h : Tidy sb F s) :
    Runs False (sysClose p fd) (fun _ t => Ends sb F t) s := by
  refine runs_argfd h.ends fun fd f _ _ => .seq (.seq (runs_gets (runs_setProc ?_)))
  refine (tidy_fileclose (hb.setOfile p fd (.inr rfl)) le_rfl (h.aside .setProc)).bind ?_
  rintro _ t ⟨F', hless, ht⟩
  exact runs_pure ⟨F', hless.agree, ht⟩

theorem tidy_sysMake {type major minor : Half} (hb : Books s rest 0) (h : Tidy sb F s) :
    Runs False (sysMake p path type major minor) (fun _ t => Tidy sb F t) s := by
  have hG := h.guards_shape hb
  refine fine_beginOp ⟨Does.refl s, h.toSound⟩ fun t ht => ?_
  have hm : Runs False (createAt p path type major minor) (Created sb F s ((shape s).op 1) type) t := by
    cases path with
    | none => exact ht
    | some path => exact fine_create ((hb.homed le_rfl).op ht.does) hG.op ht
  refine hm.bind fun a t ht => ?_
  cases a with
  | none => exact fine_endOp_zero ht fun t ht => h.fine ht
  | some ip => exact fine_drop hG.op ht.free ht.toFine fun t ht => fine_endOp_zero ht fun t ht => h.fine ht

/-- What `openInode` returns: a directory is opened for reading only. -/
def Opens (sb : Superblock) (F : Pins) (s : Kernel) (σ : Shape) (omode : Word) : Option Ip → Kernel → Prop
  | none, t => Fine sb F s σ t
  | some ip, t => ∃ type, Made sb F s σ type ip t ∧ (type = T_DIR → omode = 0)

theorem fine_openInode {path : List Byte} {omode : Word} (hp : Homed t p) (hG : Guards F σ) (h : Fine sb F s σ t) :
    Runs False (openInode p path omode) (Opens sb F s σ omode) t := by
  refine .ite (fun _ => (fine_create hp hG h).imp fun a u hu => ?_) fun _ => ?_
  · cases a with
    | none => exact hu
    | some ip => exact ⟨T_FILE, hu, fun hdir => absurd hdir (by decide)⟩
  · refine fine_namei hp hG h (fun u h => h) fun ip u h => fine_ilock h fun v hip h _ => .seq (runs_getInode ?_)
    refine .ite (fun _ => fine_drop hG hip h fun w h => h) fun hnot => ⟨_, ⟨h, hip, rfl⟩, fun hdir => ?_⟩
    rw [(h.sound.live (h.lock (by simp))).copy] at hnot
    by_contra hmode
    exact hnot ⟨hdir, hmode⟩

theorem Fine.rebase (h : Fine sb F s σ t) (ha : Aside t u) : Fine sb F u σ u :=
  ⟨(Does.refl u).cast (ha.shape.trans h.does.shape), h.sound.congr ha.disk ha.super ha.inode⟩

/-- A file is opened. -/
theorem Tidy.opened (omode : Word) (h : Tidy sb F s) (hu : Sound sb F u) (ht : Sound sb (F.pin sb u ip) t)
    (hsame : SameHeld s t) (hfree : held (t.file f) = none) (hx : held x = some ip)
    (hdir : (onDisk sb u ip).type = T_DIR → omode = 0) (hw : x.writable = true → omode ≠ 0) :
    Tidy sb (F.pin sb u ip) (t.setFile f x) where
  toSound := ht.setFile
  covers f' e he := by
    rw [file_setFile] at he ⊢
    by_cases hne : f' = f
    · rw [if_pos hne] at he ⊢
      rw [hx, Option.some.injEq] at he
      subst he
      exact ⟨_, F.pin_self, fun hwritable htype => hw hwritable (hdir htype)⟩
    · rw [if_neg hne] at he ⊢
      obtain ⟨v, hv, hwritable⟩ := h.covers f' e ((hsame.held f').symm.trans he)
      rw [hsame.writable f' (by rw [← hsame.held, he]; exact Option.some_ne_none e)]
      refine ⟨v, ?_, hwritable⟩
      rw [Pins.pin, update_apply]
      split
      · rename_i heq
        subst heq
        rw [(hu.pinned e v hv).2.2]
      · exact hv
  backed e he := by
    by_cases heq : e = ip
    · subst heq
      exact ⟨f, by rw [file_setFile, if_pos rfl, hx]⟩
    · rw [Pins.pin, update_of_ne heq] at he
      obtain ⟨f', hf'⟩ := h.backed e he
      have hf' : held (t.file f') = some e := (hsame.held f').trans hf'
      refine ⟨f', ?_⟩
      rw [file_setFile, if_neg]
      · exact hf'
      · rintro rfl
        rw [hfree] at hf'
        cases hf'

theorem Sound.agree_pin (hu : Sound sb F u) : Agree F (F.pin sb u ip) := by
  intro e v w hv hw
  rw [Pins.pin, update_apply] at hw
  split at hw
  · rename_i heq
    subst heq
    rw [← (hu.pinned e v hv).2.2]
    exact (Option.some.inj hw).symm
  · rw [hv] at hw
    exact (Option.some.inj hw).symm

theorem tidy_sysOpen {omode : Word} (hb : Books s rest 0) (h : Tidy sb F s) :
    Runs False (sysOpen p path omode) (fun _ t => Ends sb F t) s := by
  cases path with
  | none => exact h.ends
  | some path =>
    have hG := h.guards_shape hb
    refine fine_beginOp ⟨Does.refl s, h.toSound⟩ fun t ht => ?_
    refine (fine_openInode ((hb.homed le_rfl).op ht.does) hG.op ht).bind fun a t ht => ?_
    cases a with
    | none => exact fine_endOp_zero ht fun t ht => (h.fine ht).ends
    | some ip =>
      obtain ⟨type, hmade, hdir⟩ := ht
      have hfile : t.file = s.file := hmade.does.file
      -- what has to be done when there is no file or no descriptor
      have hback : ∀ {u}, Aside t u →
          Runs False (iunlockput ip >>= fun _ => endOp >>= fun _ => pure false) (fun _ t => Ends sb F t) u := by
        intro u hu
        refine fine_drop hG.op hmade.free (hmade.toFine.rebase hu) fun v hv => fine_endOp_zero hv
          fun w hw => runs_pure ?_
        exact (h.same hw.sound (((SameHeld.of_file hfile).trans hu.toSameHeld).trans (.of_file hw.does.file))).ends
      have hclosed : Closed t := by
        intro f
        rw [hfile]
        exact hb.closed f
      refine (aside_filealloc hclosed).bind fun a u hu => ?_
      obtain ⟨htu, -, hnone⟩ := hu
      cases a with
      | none => exact hback htu
      | some f =>
        have hnone : held (u.file f) = none := hnone f rfl
        refine aside_fdalloc.bind fun a v hv => ?_
        obtain ⟨huv, hvfile⟩ := hv
        have htv := htu.trans huv
        cases a with
        | none =>
          refine (aside_fileclose (by rw [hvfile]; exact hnone)).bind fun _ w hw => hback (htv.trans hw)
        | some _ =>
          -- the inode of the file is pinned from here on
          have hfine := hmade.toFine.rebase htv
          have hpin : Fine sb (F.pin sb v ip) v ((((shape s).op 1).lock ip true).plus (Pi.single ip 1)) v :=
            ⟨hfine.does, hfine.sound.pin (hfine.sound.live (hfine.lock (by simp)))⟩
          refine fine_iunlock hmade.free hpin fun w hw => fine_endOp hw fun w hw => .seq
            (runs_gets (.seq (runs_setFile ?_)))
          have hsame : SameHeld s w :=
            ((SameHeld.of_file hfile).trans htv.toSameHeld).trans (.of_file hw.does.file)
          have hfree : held (w.file f) = none := by rw [hw.does.file, hvfile]; exact hnone
          have htype : (onDisk sb v ip).type = type := by
            rw [onDisk, htv.disk, htv.inode]
            exact hmade.type
          refine runs_pure ⟨_, hfine.sound.agree_pin,
            h.opened omode hfine.sound hw.sound hsame hfree rfl (by rw [htype]; exact hdir) ?_⟩
          simp only [decide_eq_true_eq]
          rintro hw rfl
          revert hw
          decide

/-- The reference of the current directory of `p` is given up. -/
theorem tidy_iputCwd {cwd : Ip} {r : Ip → Int} {m : Unit → M β} {R : β → Kernel → Prop} (hb : Books s rest 0)
    (h : Tidy sb F s) (hr : 0 ≤ r) (ht : Fine sb F s (((shape s).op 1).plus r) t) (hcwd : (s.proc p).cwd = some cwd)
    (hm : ∀ u, Tidy sb F u → Runs False (m ()) R u) : Runs False (iput cwd >>= fun _ => endOp >>= m) R t := by
  have hpos : 0 < tally (cwds s) cwd := tally_pos (i := p) hcwd
  have hr : 1 ≤ (tally (cwds s) + r) cwd := le_add_of_le_of_nonneg (by omega) (hr cwd)
  have ht' : Fine sb F s (((rest.plus (tally (opens s))).op 1).plus (tally (cwds s) + r)) t := by
    refine ht.cast ?_
    rw [hb.shape_rest]
    simp [add_assoc]
  refine fine_iput h.guards.op hr ht' fun u hu => fine_endOp hu fun w hw => hm w (h.fine hw)

theorem tidy_sysChdir (hb : Books s rest 0) (h : Tidy sb F s) :
    Runs False (sysChdir p path) (fun _ t => Tidy sb F t) s := by
  have hG := h.guards_shape hb
  refine fine_beginOp ⟨Does.refl s, h.toSound⟩ fun t ht => ?_
  have hm : Runs False (nameiAt p path) (fun a u => Fine sb F s (((shape s).op 1).plus (point a)) u) t := by
    cases path with
    | none => exact ht.cast (by simp)
    | some path =>
      exact (fine_namex false ((hb.homed le_rfl).op ht.does) hG.op ht).bind fun a u hu => runs_pure hu
  refine hm.bind fun a t ht => ?_
  cases a with
  | none => exact fine_endOp_zero (ht.cast (τ := (shape s).op 1) (by simp)) fun t ht => h.fine ht
  | some ip =>
    refine fine_ilock ht fun t hip ht _ => .seq (runs_getInode (.ite (fun _ => ?_) fun _ => ?_))
    · exact fine_drop hG.op hip ht fun t ht => fine_endOp_zero ht fun t ht => h.fine ht
    · refine fine_iunlock hip ht fun t ht => .seq (runs_gets ?_)
      cases hcwd : (t.proc p).cwd with
      | none => exact runs_fail id (by rintro ⟨⟩)
      | some cwd =>
        rw [ht.does.proc] at hcwd
        refine tidy_iputCwd hb h (single_nonneg ip) ht hcwd fun u hu => .seq (runs_gets (.seq (runs_setProc ?_)))
        exact runs_pure (hu.aside .setProc)

/-! ## exec -/

/-- The inode is sound and locked. -/
def Reads (sb : Superblock) (F : Pins) (e : Ip) (s : Kernel) : Prop := Sound sb F s ∧ (s.inode e).lock = true

theorem reads_flip (h : Reads sb F e s) : Runs False flip (fun _ t => Reads sb F e t) s :=
  .seq (runs_gets ⟨h.1.congr rfl rfl rfl, h.2⟩)

theorem reads_loaduvm {fuel sz : Nat} {offset : Word} (h : Reads sb F e s) :
    Runs False (loaduvm e fuel offset sz) (fun _ t => Reads sb F e t) s := by
  induction fuel generalizing s offset sz with
  | zero => exact h
  | succ fuel ih =>
    refine .ite (fun _ => h) fun _ => (sound_readi h.1 h.2).bind fun bytes t ht => ?_
    cases bytes with
    | none => exact ht
    | some bytes => exact .ite (fun _ => ht) fun _ => ih ht

theorem reads_loadFrom {phnum : Nat} {off : Word} (h : Reads sb F e s) :
    Runs False (loadFrom e phnum off) (fun _ t => Reads sb F e t) s := by
  induction phnum generalizing s off with
  | zero => exact h
  | succ phnum ih =>
    refine (sound_readi h.1 h.2).bind fun ph t ht => ?_
    cases ph with
    | none => exact ht
    | some ph =>
      refine .ite (fun _ => ht) fun _ => .ite (fun _ => ih ht) fun _ => .ite (fun _ => ht) fun _ => .ite
        (fun _ => ht) fun _ => ?_
      refine (reads_flip ht).bind fun memory u hu => .ite (fun _ => .ite (fun _ => hu) fun _ => ?_) fun _ => hu
      exact (reads_loaduvm hu).bind fun loaded w hw => .ite (fun _ => ih hw) fun _ => hw

theorem reads_load (h : Reads sb F e s) : Runs False (load e) (fun _ t => Reads sb F e t) s := by
  refine (sound_readi h.1 h.2).bind fun elf t ht => ?_
  cases elf with
  | none => exact ht
  | some elf =>
    refine .ite (fun _ => ht) fun _ => .ite (fun _ => ht) fun _ => (reads_flip ht).bind fun memory u hu => ?_
    exact .ite (fun _ => reads_loadFrom hu) fun _ => hu

theorem tidy_exec (hb : Books s rest 0) (h : Tidy sb F s) :
    Runs False (exec p path) (fun _ t => Tidy sb F t) s := by
  cases path with
  | none => exact h
  | some path =>
    have hG := h.guards_shape hb
    refine fine_beginOp ⟨Does.refl s, h.toSound⟩ fun t ht => ?_
    refine fine_namei ((hb.homed le_rfl).op ht.does) hG.op ht (fun t ht => fine_endOp_zero ht fun t ht => h.fine ht)
      fun ip t ht => ?_
    refine fine_ilock ht fun t hip ht _ => ?_
    refine ht.quiet (quiet_load ip) (reads_load ⟨ht.sound, ht.lock (by simp)⟩) fun loaded t _ ht => ?_
    refine fine_drop hG.op hip ht fun t ht => fine_endOp_zero ht fun t ht => ?_
    exact .ite (fun _ => aside_flip.imp fun _ u hu => (h.fine ht).aside hu.1) fun _ => h.fine ht

/-! ## fork and exit -/

theorem tidy_fork (hb : Books s rest 0) (h : Tidy sb F s) : Runs False (fork p) (fun _ t => Tidy sb F t) s := by
  refine .seq (runs_gets ?_)
  dsimp only [id]
  split
  · exact h
  · rename_i np hnp
    have hunused : (s.proc np).state = .unused := by simpa using List.find?_some hnp
    refine .seq ((aside_flip.and_then (quiet_flip s)).imp ?_)
    rintro memory t ⟨⟨hst, -⟩, hd⟩
    refine .ite (fun _ => .seq (runs_gets (.seq (runs_setProc ?_)))) fun _ => h.aside hst
    have ht : Books t rest 0 := hb.of_does hd
    obtain ⟨hcwd, hofile⟩ := ht.idle np (by rw [hd.proc, hunused]; rintro ⟨⟩)
    set u := t.setProc np { t.proc np with state := .used, parent := some p } with hu
    have hself : u.proc np = { t.proc np with state := .used, parent := some p } := by rw [hu, proc_setProc, if_pos rfl]
    have hbu : Books u rest 0 := ht.setState np rfl rfl fun hne => absurd rfl hne
    have hfds : Runs False (each (dupFd p np) (finRange NOFILE)) (fun _ v => Aside u v) u :=
      runs_each (fun _ v => Aside u v) (fun fd _ v _ hv => aside_dupFd.imp fun _ w hw => hv.trans hw) (.refl u)
    refine .seq ((hfds.and_then (then_dupFds hbu (by rw [hself]) (by rw [hself]; exact hofile)
      (by rw [hself]; exact hcwd))).imp ?_)
    rintro _ v ⟨huv, hbv, -⟩
    have hsv : Aside s v := (hst.trans .setProc).trans huv
    have hv := h.aside hsv
    refine .seq (runs_gets ?_)
    cases hp : (v.proc p).cwd with
    | none => exact runs_fail id (by rintro ⟨⟩)
    | some cwd =>
      have hpos : 0 < (v.inode cwd).ref := hbv.homed le_rfl cwd hp
      refine .seq (((sound_idup hv.toSound hpos).and_then (then_idup hpos)).imp ?_)
      rintro cwd w ⟨hw, -, hdoes⟩
      refine .seq (runs_gets (.seq (runs_setProc (runs_pure ?_))))
      exact (hv.same hw (.of_file hdoes.file)).aside .setProc

theorem tidy_closeFd {fd : Fin NOFILE} (hb : Books s rest 0) (h : Tidy sb F s) :
    Runs False (closeFd p fd) (fun _ t => ∃ F', Less F' F ∧ Tidy sb F' t) s := by
  refine .seq (runs_gets ?_)
  cases (s.proc p).ofile fd with
  | none => exact ⟨F, .refl F, h⟩
  | some f =>
    refine (tidy_fileclose hb le_rfl h).bind ?_
    rintro _ t ⟨F', hless, ht⟩
    exact aside_setOfile.imp fun _ u hu => ⟨F', hless, ht.aside hu.1⟩

theorem tidy_closeFds (hb : Books s rest 0) (h : Tidy sb F s) : Runs False (each (closeFd p) (finRange NOFILE))
    (fun _ t => Books t rest 0 ∧ ∃ F', Less F' F ∧ Tidy sb F' t) s := by
  refine runs_each (fun _ t => Books t rest 0 ∧ ∃ F', Less F' F ∧ Tidy sb F' t) ?_ ⟨hb, F, .refl F, h⟩
  rintro fd _ t _ ⟨hbt, F₁, hless₁, ht⟩
  refine ((tidy_closeFd hbt ht).and_then (then_closeFd hbt)).imp ?_
  rintro _ u ⟨⟨F₂, hless₂, hu⟩, hbu, -⟩
  exact ⟨hbu, F₂, hless₂.trans hless₁, hu⟩

theorem tidy_exit (hb : Books s rest 0) (h : Tidy sb F s) : Runs False (exit p) (fun _ t => Ends sb F t) s := by
  refine .ite (fun _ => runs_fail id (by rintro ⟨⟩)) fun _ => (tidy_closeFds hb h).bind ?_
  rintro _ t ⟨hbt, F', hless, ht⟩
  refine fine_beginOp ⟨Does.refl t, ht.toSound⟩ fun u hu => .seq (runs_gets ?_)
  cases hcwd : (u.proc p).cwd with
  | none => exact runs_fail id (by rintro ⟨⟩)
  | some cwd =>
    rw [hu.does.proc] at hcwd
    refine tidy_iputCwd hbt ht le_rfl (hu.cast (by simp)) hcwd fun v hv => .seq
      (runs_gets (.seq (runs_setProc (.seq (runs_modify ?_)))))
    have hdone : ∀ {w}, Aside v w → Ends sb F w := fun hw => ⟨F', hless.agree, hv.aside hw⟩
    exact .seq (runs_gets (.seq (runs_setProc (runs_pure (hdone ⟨.of_file rfl, rfl, rfl, rfl, rfl⟩)))))

/-! ## Runs of calls -/

/-- The call is to write to file `f`, through a descriptor that is open for writing. -/
def Call.Writes (call : Call) (p : Pp) (s : Kernel) (f : Fp) : Prop :=
  ∃ (fd : Fin NOFILE) (src : List Byte) (piped : Bool), call = .write fd.val (some src) piped ∧
    (s.proc p).ofile fd = some f ∧ (s.file f).writable = true

/-- What a call keeps. All but a `write` to an inode leave the bytes of open files alone. -/
def Called (sb : Superblock) (F : Pins) (s : Kernel) (p : Pp) (call : Call) (t : Kernel) : Prop :=
  ∃ F', Tidy sb F' t ∧
    ((∀ f e v, call.Writes p s f → held (s.file f) = some e → F e = some v → ¬Plain v.1) → Agree F F')

theorem Ends.called {call : Call} (h : Ends sb F t) : Called sb F s p call t := by
  obtain ⟨F', hagree, ht⟩ := h
  exact ⟨F', ht, fun _ => hagree⟩

theorem Tidy.called {call : Call} (h : Tidy sb F t) : Called sb F s p call t := h.ends.called

theorem tidy_sysRead {fd : Int} {n : Option Word} {piped : Option (List Byte)} (h : Tidy sb F s) :
    Runs False (sysRead p fd n piped) (fun _ t => Tidy sb F t) s := by
  refine runs_argfd h fun fd f _ _ => ?_
  cases n with
  | none => exact h
  | some n => exact (tidy_fileread h).bind fun r t ht => runs_pure ht.1.1

theorem tidy_sysWrite {fd : Int} {bytes : Option (List Byte)} {piped : Bool} (h : Tidy sb F s) :
    Runs False (sysWrite p fd bytes piped) (fun _ t => Called sb F s p (.write fd bytes piped) t) s := by
  refine runs_argfd h.called fun fd' f hfd hf => ?_
  cases bytes with
  | none => exact h.called
  | some bytes =>
    refine (tidy_filewrite h).imp ?_
    rintro r t ⟨-, n, F', ht, hsplices, -⟩
    refine ⟨F', ht, fun hnone => ?_⟩
    rw [hsplices.same fun e v he hv hw => hnone f e v ⟨fd', bytes, piped, by rw [hfd], hf, hw⟩ he hv]
    exact .refl F

theorem tidy_sysFstat {fd : Int} {st : Bool} (h : Tidy sb F s) :
    Runs False (sysFstat p fd st) (fun _ t => Tidy sb F t) s := by
  refine runs_argfd h fun fd f _ _ => ?_
  cases st with
  | false => exact h
  | true => exact tidy_filestat h

theorem tidy_call (hb : Books s rest 0) (h : Tidy sb F s) (call : Call) :
    Runs False (call.run p) (fun _ t => Called sb F s p call t) s := by
  have hhome : Homed s p := hb.homed le_rfl
  have hG := h.guards_shape hb
  cases call with
  | dup fd => exact aside_sysDup.imp fun _ t ht => (h.aside ht).called
  | read fd n piped => exact (tidy_sysRead h).imp fun _ t ht => ht.called
  | write fd src piped => exact tidy_sysWrite h
  | close fd => exact (tidy_sysClose hb h).imp fun _ t ht => ht.called
  | fstat fd st => exact (tidy_sysFstat h).imp fun _ t ht => ht.called
  | link old new =>
    cases old <;> cases new
    case some.some => exact (fine_sysLink hhome hG h.toSound).imp fun _ t ht => (h.fine ht).called
    all_goals exact h.called
  | unlink path =>
    cases path with
    | none => exact h.called
    | some path => exact (fine_sysUnlink hhome hG h.toSound).imp fun _ t ht => (h.fine ht).called
  | «open» path omode => exact (tidy_sysOpen hb h).imp fun _ t ht => ht.called
  | mkdir path => exact (tidy_sysMake hb h).imp fun _ t ht => ht.called
  | mknod path major minor => exact (tidy_sysMake hb h).imp fun _ t ht => ht.called
  | chdir path => exact (tidy_sysChdir hb h).imp fun _ t ht => ht.called
  | exec path => exact (tidy_exec hb h).imp fun _ t ht => ht.called
  | pipe arg => exact (aside_sysPipe hb.closed).imp fun _ t ht => (h.aside ht).called
  | fork => exact (tidy_fork hb h).imp fun _ t ht => ht.called
  | wait => exact aside_wait.imp fun _ t ht => (h.aside ht).called
  | exit => exact (tidy_exit hb h).imp fun _ t ht => ht.called

def Label.start (l : Label) (s : Kernel) : Kernel := { s with input := l.input, coin := l.coin }

theorem Tidy.start {l : Label} (h : Tidy sb F s) : Tidy sb F (l.start s) := h.aside ⟨.of_file rfl, rfl, rfl, rfl, rfl⟩

theorem Books.start_label {l : Label} (h : Books s k y) : Books (l.start s) k y :=
  ⟨h.shape, h.files, h.closed, h.unique, h.idle⟩

theorem step_tidy {l : Label} (hb : Books s rest 0) (h : Tidy sb F s) (hstep : step s l = some t) :
    Called sb F s l.p l.call t := by
  rw [step] at hstep
  split at hstep
  · split at hstep
    · rename_i hok
      cases hstep
      exact wp_ok (Q := fun _ t => Called sb F s l.p l.call t) (tidy_call (hb.start_label (l := l)) h.start l.call) hok
    · cases hstep
  · cases hstep

/-- The invariant of the system. -/
def Kernel.Good (sb : Superblock) (s : Kernel) : Prop := Books s rest 0 ∧ ∃ F, Tidy sb F s

theorem step_good {l : Label} (h : s.Good sb) (hstep : step s l = some t) : t.Good sb := by
  obtain ⟨hb, F, h⟩ := h
  obtain ⟨F', ht, -⟩ := step_tidy hb h hstep
  exact ⟨step_books hb hstep, F', ht⟩

theorem boot_good {blk : Nat → Blk} (hfs : FileSystem (superblockAt (blk 1)) blk) :
    (boot blk).Good (superblockAt (blk 1)) := by
  have hfirst : ∀ e, 0 < ((boot blk).inode e).ref → e.val = 0 := by
    intro e he
    by_contra hne
    simp [boot, hne, zeroInode] at he
  have hroot : ∀ e, 0 < ((boot blk).inode e).ref →
      (boot blk).inode e = { zeroInode with dev := ROOTDEV, inum := ROOTINO, ref := 1 } := fun e he => if_pos
      (hfirst e he)
  have hcold : ∀ e, 0 < ((boot blk).inode e).ref → ((boot blk).inode e).valid ≠ true := by
    intro e he
    rw [hroot e he]
    rintro ⟨⟩
  have hunlocked : ∀ e, ((boot blk).inode e).lock ≠ true := by
    intro e
    simp only [boot]
    split <;> rintro ⟨⟩
  have hb : Books (boot blk) rest 0 := boot_books blk
  refine ⟨hb, fun _ => none, ⟨⟨⟨hb.unique, ?_, fun e he hv => absurd hv (hcold e he)⟩, hfs, rfl, ?_,
    fun e he hv => absurd hv (hcold e he), fun e hl => absurd hl (hunlocked e), by rintro e v ⟨⟩⟩, by rintro f e ⟨⟩,
    fun e he => absurd rfl he⟩⟩
  · intro e he
    rw [hroot e he]
  · intro e he
    rw [hroot e he]
    exact ⟨le_refl 1, hfs.vol.layout.root⟩

/-- After any calls the disk is a well-formed file system. -/
theorem disk_stays_wellFormed {blk : Nat → Blk} (hfs : FileSystem (superblockAt (blk 1)) blk) (calls : List Label) :
    Always step (fun s => FileSystem (superblockAt (blk 1)) s.blk) (boot blk) calls := by
  refine always_of_inductive (Kernel.Good (superblockAt (blk 1))) (fun _ _ _ => step_good) ?_ (boot_good hfs) calls
  rintro s ⟨-, F, h⟩
  exact h.disk

theorem tiny_fileSystem : FileSystem (superblockAt (tinyDisk 1)) tinyDisk := by
  have hsb : superblockAt (tinyDisk 1) = tinySb := by decide +kernel
  have hempty : ∀ i < 8, (dinodeOf tinySb tinyDisk i).size = 0 := by decide +kernel
  rw [hsb]
  exact ⟨tiny_wellFormed, fun i hi _ => .empty (hempty i hi.2.1)⟩

theorem disk_stays_wellFormed_tiny :
    FileSystem (superblockAt (tinyDisk 1)) tinyDisk ∧
      Always step (fun s => FileSystem (superblockAt (tinyDisk 1)) s.blk) (boot tinyDisk)
        [⟨initproc, .mkdir (some [97]), [], []⟩, ⟨initproc, .unlink (some [97]), [], []⟩] :=
  ⟨tiny_fileSystem, disk_stays_wellFormed tiny_fileSystem _⟩

theorem Kernel.Good.freeing_free_ne {l : Label} (h : s.Good sb) :
    l.call.run l.p (l.start s) ≠ .error (.panic .freeingFree) := by
  obtain ⟨hb, F, h⟩ := h
  intro herr
  exact (wp_error (tidy_call (p := l.p) (hb.start_label (l := l)) h.start l.call) herr).2 rfl

theorem along_freeing_free_ne {blk : Nat → Blk} (hfs : FileSystem (superblockAt (blk 1)) blk) (calls : List Label) :
    Along step (fun s l => l.call.run l.p (l.start s) ≠ .error (.panic .freeingFree)) (boot blk) calls :=
  (always_of_invariant (Kernel.Good (superblockAt (blk 1))) (C := fun _ _ => True) (P := fun _ => True)
    (fun _ _ _ hs _ => step_good hs) (fun _ _ => trivial) (fun _ _ hs _ => hs.freeing_free_ne) (boot_good hfs)
    (along_of_forall (fun _ _ => trivial) _ calls)).2

/-- No call tries to free a block that is free. -/
theorem no_free_block_is_freed {blk : Nat → Blk} (hfs : FileSystem (superblockAt (blk 1)) blk) (calls : List Label) :
    Along step (fun s l => l.call.run l.p (l.start s) ≠ .error (.panic .freeingFree)) (boot blk) calls :=
  along_freeing_free_ne hfs calls

theorem no_free_block_is_freed_tiny :
    FileSystem (superblockAt (tinyDisk 1)) tinyDisk ∧
      Along step (fun s l => l.call.run l.p (l.start s) ≠ .error (.panic .freeingFree)) (boot tinyDisk)
        [⟨initproc, .mkdir (some [97]), [], []⟩, ⟨initproc, .unlink (some [97]), [], []⟩] :=
  ⟨tiny_fileSystem, no_free_block_is_freed tiny_fileSystem _⟩

/-! ## The blocks of a disk -/

/-- Slot `x.2` of inode `x.1` refers to block `b`. -/
def Refers (sb : Superblock) (blk : Nat → Blk) (b : Nat) (x : Nat × Nat) : Prop :=
  Allocated sb (dinodeOf sb blk) x.1 ∧ slot blk (dinodeOf sb blk x.1) x.2 = b

/-- A bit of the free map is set for metadata, and for a block that one slot of one inode refers to. No slot refers to
metadata, and none to a block of another slot. The blocks of a file or directory are those that its size asks for. -/
structure BlocksOwned (sb : Superblock) (blk : Nat → Blk) : Prop where
  bit : ∀ b, b < sb.size.toNat → (bitOf sb blk b = true ↔ b < dataStart sb ∨ ∃! x, Refers sb blk b x)
  once : ∀ b x, b ≠ 0 → Refers sb blk b x → dataStart sb ≤ b ∧ b < sb.size.toNat ∧ ∀ x', Refers sb blk b x' → x' = x
  sized : ∀ i, Allocated sb (dinodeOf sb blk) i → (dinodeOf sb blk i).type ≠ T_DEV →
    (dinodeOf sb blk i).size.toNat ≤ MAXFILE * BSIZE ∧
      ∀ bn, bn < MAXFILE → (index blk (dinodeOf sb blk i) bn ≠ 0 ↔ bn * BSIZE < (dinodeOf sb blk i).size.toNat)

theorem refers_iff {blk : Nat → Blk} {b : Nat} {x : Nat × Nat} (hb : b ≠ 0) :
    Refers sb blk b x ↔ slotsOf sb blk (dinodeOf sb blk) 0 (some x) = b := by
  rw [Refers, slotsOf]
  split
  · rename_i hi
    exact and_iff_right hi
  · rename_i hi
    exact iff_of_false (fun h => hi h.1) (Ne.symm hb)

theorem WellFormed.blocksOwned {blk : Nat → Blk} (h : WellFormed sb blk) : BlocksOwned sb blk := by
  have hown := h.vol.owned
  have honce : ∀ b x, b ≠ 0 → Refers sb blk b x →
      dataStart sb ≤ b ∧ b < sb.size.toNat ∧ ∀ x', Refers sb blk b x' → x' = x := by
    intro b x hb hx
    have hslot := (refers_iff hb).mp hx
    have hne : slotsOf sb blk (dinodeOf sb blk) 0 (some x) ≠ 0 := hslot.symm ▸ hb
    have hrange := hown.range hne
    rw [hslot] at hrange
    refine ⟨hrange.1, hrange.2, fun x' hx' => ?_⟩
    exact (Option.some.inj (hown.inj hne (hslot.trans ((refers_iff hb).mp hx').symm))).symm
  refine ⟨fun b hlt => ?_, honce, fun i hi htype => ⟨(h.sized i hi htype).max, (h.sized i hi htype).mapped⟩⟩
  by_cases hmeta : b < dataStart sb
  · exact iff_of_true (hown.reserved hmeta hlt) (.inl hmeta)
  · have hb : b ≠ 0 := by
      have hpos := hown.pos
      omega
    rw [hown.marked (Nat.le_of_not_lt hmeta) hlt, or_iff_right hmeta]
    constructor
    · rintro ⟨x, hx⟩
      cases x with
      | none => exact absurd hx.symm hb
      | some x => exact ⟨x, (refers_iff hb).mpr hx, (honce b x hb ((refers_iff hb).mpr hx)).2.2⟩
    · rintro ⟨x, hx, -⟩
      exact ⟨some x, (refers_iff hb).mp hx⟩

/-- **Block ownership.** After any calls the free map and the slots of the inodes agree, and no call has tried to free a
block that was free. -/
theorem blocks_have_one_owner {blk : Nat → Blk} (hfs : FileSystem (superblockAt (blk 1)) blk) (calls : List Label) :
    Always step (fun s => BlocksOwned (superblockAt (blk 1)) s.blk) (boot blk) calls ∧
      Along step (fun s l => l.call.run l.p (l.start s) ≠ .error (.panic .freeingFree)) (boot blk) calls := by
  refine ⟨?_, along_freeing_free_ne hfs calls⟩
  refine always_of_inductive (Kernel.Good (superblockAt (blk 1))) (fun _ _ _ => step_good) ?_ (boot_good hfs) calls
  rintro s ⟨-, F, h⟩
  exact h.disk.toWellFormed.blocksOwned

/-- A file is made, written to, closed and removed. -/
theorem blocks_have_one_owner_tiny :
    FileSystem (superblockAt (tinyDisk 1)) tinyDisk ∧
      Always step (fun s => BlocksOwned (superblockAt (tinyDisk 1)) s.blk) (boot tinyDisk)
        [⟨initproc, .open (some [97]) 0x202, [], []⟩, ⟨initproc, .write 0 (some [7, 8, 9]) true, [], []⟩,
          ⟨initproc, .close 0, [], []⟩, ⟨initproc, .unlink (some [97]), [], []⟩] :=
  ⟨tiny_fileSystem, (blocks_have_one_owner tiny_fileSystem _).1⟩

/-! ## The bytes of open files -/

/-- The bytes of the inode that file `f` is open for, if it is no directory and no device. -/
def bytesOf (sb : Superblock) (s : Kernel) (f : Fp) : Option (List Byte) :=
  (held (s.file f)).bind fun e => if Plain (onDisk sb s e).type then some (contents s.blk (onDisk sb s e)) else none

theorem Tidy.bytesOf (h : Tidy sb F s) (he : held (s.file f) = some e) (hv : F e = some v) :
    bytesOf sb s f = if Plain v.1 then some v.2 else none := by
  have hnote := (h.pinned e v hv).2.2
  have htype : (onDisk sb s e).type = v.1 := congrArg Prod.fst hnote
  rw [Fs.bytesOf, he, Option.bind_some, htype]
  split
  · rename_i hplain
    rw [(h.noted hv hplain).2]
  · rfl

theorem Tidy.pin_of_bytes {bytes : List Byte} (h : Tidy sb F s) (hbytes : Fs.bytesOf sb s f = some bytes) :
    ∃ e v, held (s.file f) = some e ∧ F e = some v ∧ Plain v.1 ∧ v.2 = bytes := by
  cases hheld : held (s.file f) with
  | none =>
    rw [Fs.bytesOf, hheld] at hbytes
    cases hbytes
  | some e =>
    obtain ⟨v, hv, -⟩ := h.covers f e hheld
    rw [h.bytesOf hheld hv] at hbytes
    split at hbytes
    · rename_i hplain
      exact ⟨e, v, rfl, hv, hplain, Option.some.inj hbytes⟩
    · cases hbytes

theorem Tidy.bytesOf_congr (h : Tidy sb F s) (ht : Tidy sb F' t) (hheld : held (t.file f) = held (s.file f))
    (hF : ∀ e, held (s.file f) = some e → F' e = F e) : Fs.bytesOf sb t f = Fs.bytesOf sb s f := by
  cases hs : held (s.file f) with
  | none => rw [Fs.bytesOf, Fs.bytesOf, hheld, hs, Option.bind_none, Option.bind_none]
  | some e =>
    obtain ⟨v, hv, -⟩ := h.covers f e hs
    rw [h.bytesOf hs hv, ht.bytesOf (hheld.trans hs) ((hF e hs).trans hv)]

/-- Open files are arrays of bytes. -/
structure ByteArrays (sb : Superblock) (s : Kernel) : Prop where
  /-- A read returns a stretch of the bytes and moves the offset. -/
  read : ∀ l f n piped r t bytes, fileread f n piped (Label.start l s) = .ok (r, t) → bytesOf sb s f = some bytes →
    (s.file f).readable = true →
      r = reads bytes (s.file f).off n ∧
      t.file f = { s.file f with off := (s.file f).off + ofNat 32 (r.getD []).length } ∧
      ∀ f', bytesOf sb t f' = bytesOf sb s f'
  /-- A write replaces a stretch by the first `n` bytes, by all of them if it returns `true`. -/
  write : ∀ l f src piped r t bytes, filewrite f src piped (Label.start l s) = .ok (r, t) →
    bytesOf sb s f = some bytes → (s.file f).writable = true →
      ∃ n, n ≤ src.length ∧ (r = true → n = src.length) ∧
        t.file f = { s.file f with off := (s.file f).off + ofNat 32 n } ∧
        ∀ f', bytesOf sb t f' = if held (s.file f') = held (s.file f) then
          some (splice bytes (s.file f).off.toNat (src.take n)) else bytesOf sb s f'
  /-- No other call changes the bytes of a file that stays open. -/
  other : ∀ l t f, step s l = some t → (∀ f', l.call.Writes l.p s f' → bytesOf sb s f' = none) →
    held (t.file f) = held (s.file f) → bytesOf sb t f = bytesOf sb s f

theorem Kernel.Good.byteArrays (h : s.Good sb) : ByteArrays sb s := by
  obtain ⟨hb, F, h⟩ := h
  constructor
  · intro l f n piped r t bytes hok hbytes hread
    obtain ⟨e, v, he, hv, hplain, rfl⟩ := h.pin_of_bytes hbytes
    obtain ⟨⟨ht, hsame⟩, hr⟩ := wp_ok (tidy_fileread (h.start (l := l))) hok
    obtain ⟨hr, hself⟩ := hr e v he hv hplain hread
    exact ⟨hr, hself, fun f' => h.bytesOf_congr ht (hsame.held f') fun _ _ => rfl⟩
  · intro l f src piped r t bytes hok hbytes hwrite
    obtain ⟨e, v, he, hv, hplain, rfl⟩ := h.pin_of_bytes hbytes
    obtain ⟨hsame, n, F', ht, hsplices, hn⟩ := wp_ok (tidy_filewrite (h.start (l := l))) hok
    obtain ⟨hle, hall, hself⟩ := hn e v he hv hplain hwrite
    refine ⟨n, hle, hall, hself, fun f' => ?_⟩
    split
    · rename_i heq
      have hheld : held (t.file f') = some e := (hsame.held f').trans (heq.trans he)
      rw [ht.bytesOf hheld (hsplices.here e v he hv hwrite hplain), if_pos hplain]
      rfl
    · rename_i hne
      refine h.bytesOf_congr ht (hsame.held f') fun e' he' => hsplices.other e' ?_
      intro heq
      exact hne (he'.trans heq.symm)
  · intro l t f hstep hcall hheld
    obtain ⟨F', ht, hagree⟩ := step_tidy hb h hstep
    cases hs : held (s.file f) with
    | none => rw [bytesOf, bytesOf, hheld, hs, Option.bind_none, Option.bind_none]
    | some e =>
      obtain ⟨v, hv, -⟩ := h.covers f e hs
      obtain ⟨w, hw, -⟩ := ht.covers f e (hheld.trans hs)
      have hnone : ∀ f e v, l.call.Writes l.p s f → held (s.file f) = some e → F e = some v → ¬Plain v.1 := by
        intro f e v hwrites he hv hplain
        have hbytes := hcall f hwrites
        rw [h.bytesOf he hv, if_pos hplain] at hbytes
        cases hbytes
      rw [h.bytesOf hs hv, ht.bytesOf (hheld.trans hs) hw, hagree hnone e v w hv hw]

/-- After any calls the open files are arrays of bytes. -/
theorem open_files_are_byte_arrays {blk : Nat → Blk} (hfs : FileSystem (superblockAt (blk 1)) blk)
    (calls : List Label) :
    Always step (ByteArrays (superblockAt (blk 1))) (boot blk) calls :=
  always_of_inductive (Kernel.Good (superblockAt (blk 1))) (fun _ _ _ => step_good) (fun _ h => h.byteArrays)
    (boot_good hfs) calls

theorem open_files_are_byte_arrays_tiny :
    FileSystem (superblockAt (tinyDisk 1)) tinyDisk ∧
      Always step (ByteArrays (superblockAt (tinyDisk 1))) (boot tinyDisk)
        [⟨initproc, .open (some [97]) 0x202, [], []⟩, ⟨initproc, .write 0 (some [7, 8, 9]) true, [], []⟩] :=
  ⟨tiny_fileSystem, open_files_are_byte_arrays tiny_fileSystem _⟩

-- The first process makes a file and writes three bytes to it.
example : (run step (boot tinyDisk)
    [⟨initproc, .open (some [97]) 0x202, [], []⟩, ⟨initproc, .write 0 (some [7, 8, 9]) true, [], []⟩]).bind
      (fun s => bytesOf tinySb s ⟨0, by decide⟩) = some [7, 8, 9] := by
  decide +kernel

end Xv6.Fs
