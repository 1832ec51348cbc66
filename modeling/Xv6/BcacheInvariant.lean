import Mathlib
import Xv6.Bcache

/- The invariant of the buffer cache, and what a step of one process keeps of it.

   1. `Listed`: the ring, and that looking up the block of a buffer that has been
      assigned finds this buffer. Buffers that `bget` has never returned carry device 0
      and block 0, which are a block's too: the first of them becomes its buffer.
   2. `uses`: the references that `refcnt` counts.
   3. `Knows`: what a process can rely on at its place in the code.
   4. `Serves`: how far the drive is with the first request.
   5. `Inv`, and the lemmas on a step that stores to one buffer (`Move`). -/
namespace Xv6.Bcache
open Function List Bits Log LinkedRing Transition

variable {n : Nat}

structure Names (s : Cache n) (b : BufId) (dev blockno : Word) : Prop where
  assigned : (s.buf b).assigned = true
  dev : (s.buf b).dev = dev
  blockno : (s.buf b).blockno = blockno

/-- The test in the first loop of `bget`. -/
def isFor (s : Cache n) (dev blockno : Word) (b : BufId) : Bool :=
  decide ((s.buf b).dev = dev ∧ (s.buf b).blockno = blockno)

structure Listed (s : Cache n) (l : List BufId) : Prop where
  ring : IsRing s.links l
  mem : ∀ b, b ∈ l
  find : ∀ b, (s.buf b).assigned = true → l.find? (isFor s (s.buf b).dev (s.buf b).blockno) = some b

/-- The references to `b` that a process at this place has, besides the lock. -/
def Pc.refs (b : BufId) : Pc → Nat
  | .acquiresleep _ _ c | .brelse c => if c = b then 1 else 0
  | _ => 0

def uses (s : Cache n) (b : BufId) (i : Fin n) : Nat :=
  (if (s.buf b).lock = some i then 1 else 0) + (s.pc i).refs b

def Pc.on : Pc → Option BufId
  | .user none | .bget .. => none
  | .user (some (_, _, b)) | .acquiresleep _ _ b | .test _ _ b | .iderw _ b | .await _ b | .brelse b =>
    some b

/-- The process has locked `b` in `bread`, which has not returned yet. -/
def Pc.Reads (b : BufId) : Pc → Prop
  | .test _ _ c | .iderw (.bread ..) c | .await (.bread ..) c => c = b
  | _ => False

def Knows (s : Cache n) (i : Fin n) : Pc → Prop
  | .user none => True
  | .user (some (dev, blockno, b)) =>
    (s.buf b).lock = some i ∧ Names s b dev blockno ∧ (s.buf b).valid = true
  | .bget dev _ => dev.toNat < 2
  | .acquiresleep dev blockno b => Names s b dev blockno
  | .test dev blockno b => (s.buf b).lock = some i ∧ Names s b dev blockno
  | .iderw (.bread dev blockno) b =>
    (s.buf b).lock = some i ∧ Names s b dev blockno ∧ (s.buf b).valid = false
  | .iderw .bwrite b => (s.buf b).lock = some i ∧ (s.buf b).dirty = true
  | .await (.bread dev blockno) b => (s.buf b).lock = some i ∧ Names s b dev blockno
  | .await .bwrite b => (s.buf b).lock = some i
  | .brelse b => (s.buf b).lock ≠ some i ∧ (s.buf b).assigned = true

structure BufOk (x : Buf n) : Prop where
  changed : x.changed = true → x.lock ≠ none
  lock : x.lock ≠ none → x.assigned = true
  dirty : x.dirty = true → x.valid = true
  valid : x.valid = true → x.assigned = true
  assigned : x.assigned = true → x.dev.toNat < 2

/-- A request is for a buffer whose process waits for it. -/
def Requests (s : Cache n) (b : BufId) (i : Fin n) (k : Caller) : Prop :=
  s.pc i = .await k b ∧ (s.buf b).lock = some i ∧
    match k with
    | .bread .. => (s.buf b).valid = false
    | .bwrite => (s.buf b).dirty = true

/-- The drive is busy with, or done with, the request for `b`. -/
def Serves (s : Cache n) (b : BufId) : Drive → Prop
  | .idle => False
  | .reading d sector =>
    (s.buf b).dirty = false ∧ d = (s.buf b).dev &&& 1#32 ∧ sector = (s.buf b).blockno
  | .writing d sector data =>
    (s.buf b).dirty = true ∧ d = (s.buf b).dev &&& 1#32 ∧ sector = (s.buf b).blockno ∧
      data = (s.buf b).data
  | .done port =>
    if (s.buf b).dirty then s.onDisk (s.buf b).dev (s.buf b).blockno = (s.buf b).data
    else port = some (s.onDisk (s.buf b).dev (s.buf b).blockno)

structure Requested (s : Cache n) : Prop where
  requests : ∀ b ∈ s.queue, ∃ i k, Requests s b i k
  nodup : s.queue.Nodup
  idle : s.queue = [] → s.drive = .idle
  serves : ∀ b, s.queue.head? = some b → Serves s b s.drive

structure Synced (s : Cache n) : Prop where
  cached : ∀ b, (s.buf b).valid = true → (s.buf b).data = s.last (s.buf b).dev (s.buf b).blockno
  /-- A block without a buffer, or whose buffer is not read yet or clean, has its last data on
  the disk. -/
  stored : ∀ dev blockno, dev.toNat < 2 →
    (∀ b, Names s b dev blockno → (s.buf b).valid = true →
      (s.buf b).dirty = false ∧ (s.buf b).changed = false) →
    s.onDisk dev blockno = s.last dev blockno

structure Inv (s : Cache n) : Prop where
  listed : ∃ l, Listed s l
  counted : ∀ b, (s.buf b).refcnt = ∑ i, uses s b i
  knows : ∀ i, Knows s i (s.pc i)
  held : ∀ b i, (s.buf b).lock = some i → (s.buf b).valid = true ∨ (s.pc i).Reads b
  ok : ∀ b, BufOk (s.buf b)
  requested : Requested s
  synced : Synced s

variable {s s' : Cache n} {i j : Fin n} {b c : BufId} {x : Buf n} {k k' : Pc} {l : List BufId}
  {dev blockno : Word}

/-! ## The list -/

theorem find?_of_imp {p q : BufId → Bool} (h : l.find? p = some b) (hb : q b = true)
    (hq : ∀ a, q a = true → p a = true) : l.find? q = some b := by
  obtain ⟨-, l₁, l₂, rfl, hl₁⟩ := List.find?_eq_some_iff_append.mp h
  refine List.find?_eq_some_iff_append.mpr ⟨hb, l₁, l₂, rfl, fun a ha => ?_⟩
  have := hl₁ a ha
  grind

theorem find?_erase {p : BufId → Bool} (hb : ¬ p b = true) : (l.erase b).find? p = l.find? p := by
  induction l with
  | nil => rfl
  | cons a l ih =>
    by_cases hab : a = b
    · subst hab
      rw [erase_cons_head, List.find?_cons_of_neg hb]
    · rw [erase_cons_tail (by simpa using hab), List.find?_cons, List.find?_cons, ih]

theorem Listed.find_of_names (h : Listed s l) (hb : Names s b dev blockno) :
    l.find? (isFor s dev blockno) = some b := by
  have := h.find b hb.assigned
  rwa [hb.dev, hb.blockno] at this

theorem Listed.unique (h : Listed s l) (hb : Names s b dev blockno) (hc : Names s c dev blockno) :
    b = c := by
  have := (h.find_of_names hb).symm.trans (h.find_of_names hc)
  exact Option.some.inj this

theorem Listed.length_lt (h : Listed s l) : l.length < NBUF + 1 := by
  have := h.ring.nodup.length_le_card
  rw [Fintype.card_fin] at this
  omega

theorem Listed.congr (h : Listed s l) (hl : s'.links = s.links)
    (hb : ∀ b, (s'.buf b).dev = (s.buf b).dev ∧ (s'.buf b).blockno = (s.buf b).blockno ∧
      (s'.buf b).assigned = (s.buf b).assigned) : Listed s' l := by
  have hfor : isFor s' = isFor s := by
    funext dev blockno b
    simp only [isFor, hb]
  refine ⟨hl ▸ h.ring, h.mem, ?_⟩
  intro b ha
  rw [hfor, (hb b).1, (hb b).2.1]
  exact h.find b ((hb b).2.2 ▸ ha)

theorem Listed.toFront (h : Listed s l) (ha : (s.buf b).assigned = true) :
    Listed { s with links := (s.links.unlink b).pushFront b } (b :: l.erase b) := by
  refine ⟨h.ring.toFront (h.mem b), ?_, ?_⟩
  · intro c
    by_cases hc : c = b
    · simp [hc]
    · simp [hc, mem_erase_of_ne hc, h.mem c]
  · intro c hc
    change List.find? (isFor s _ _) _ = _
    by_cases hb : isFor s (s.buf c).dev (s.buf c).blockno b = true
    · -- both are the block's buffer
      have hkey : (s.buf b).dev = (s.buf c).dev ∧ (s.buf b).blockno = (s.buf c).blockno := by
        simpa [isFor] using hb
      rw [List.find?_cons_of_pos hb, h.unique ⟨ha, hkey.1, hkey.2⟩ ⟨hc, rfl, rfl⟩]
    · rw [List.find?_cons_of_neg hb, find?_erase hb]
      exact h.find c hc

theorem Listed.assign (h : Listed s l) (hb : l.find? (isFor s dev blockno) = some b)
    (hx : x.dev = (s.buf b).dev ∧ x.blockno = (s.buf b).blockno) : Listed (s.setBuf b x) l := by
  have hkey : (s.buf b).dev = dev ∧ (s.buf b).blockno = blockno := by
    simpa [isFor] using List.find?_some hb
  have hfor : isFor (s.setBuf b x) = isFor s := by
    funext dev blockno c
    by_cases hc : c = b
    · subst hc
      simp [isFor, Cache.setBuf, hx]
    · simp [isFor, Cache.setBuf, hc]
  refine ⟨h.ring, h.mem, ?_⟩
  intro c hc
  rw [hfor]
  by_cases hcb : c = b
  · subst hcb
    simpa [Cache.setBuf, hx, hkey] using hb
  · simp only [Cache.setBuf, update_of_ne hcb] at hc ⊢
    exact h.find c hc

theorem Listed.recycle (h : Listed s l) (hnone : l.find? (isFor s dev blockno) = none)
    (hx : x.dev = dev ∧ x.blockno = blockno) : Listed (s.setBuf b x) l := by
  have hfor : ∀ c, isFor s dev blockno c = false := by
    intro c
    simpa using List.find?_eq_none.mp hnone c (h.mem c)
  have hsame : ∀ {d m c}, c ≠ b → isFor (s.setBuf b x) d m c = isFor s d m c := by
    intro d m c hc
    simp [isFor, Cache.setBuf, hc]
  refine ⟨h.ring, h.mem, ?_⟩
  intro c hc
  by_cases hcb : c = b
  · -- the only buffer that is now for the block
    subst hcb
    obtain ⟨l₁, l₂, rfl⟩ := append_of_mem (h.mem c)
    refine List.find?_eq_some_iff_append.mpr ⟨by simp [isFor], l₁, l₂, rfl, ?_⟩
    intro a ha
    have hac : a ≠ c := by
      rintro rfl
      have := disjoint_of_nodup_append h.ring.nodup ha
      exact this (mem_cons_self ..)
    simp only [Cache.setBuf, update_self, hx]
    rw [← Cache.setBuf, hsame hac, hfor a]
    rfl
  · have hxc : s.setBuf b x = s.setBuf b x := rfl
    simp only [Cache.setBuf, update_of_ne hcb] at hc ⊢
    rw [← Cache.setBuf]
    have hfind := h.find c hc
    refine find?_of_imp hfind (by rw [hsame hcb]; simp [isFor]) ?_
    intro a ha
    by_cases hab : a = b
    · -- `c` would be for the block already
      subst hab
      have hkey : dev = (s.buf c).dev ∧ blockno = (s.buf c).blockno := by
        simpa [isFor, Cache.setBuf, hx] using ha
      have := hfor c
      simp [isFor, hkey] at this
    · rwa [hsame hab] at ha

/-! ## References -/

theorem counted_move (h : ∀ b, (s.buf b).refcnt = ∑ i, uses s b i)
    (hj : ∀ j, j ≠ i → ∀ b, uses s' b j = uses s b j)
    (hi : ∀ b, (s'.buf b).refcnt + uses s b i = (s.buf b).refcnt + uses s' b i) (b : BufId) :
    (s'.buf b).refcnt = ∑ i, uses s' b i := by
  have hrest : ∑ j ∈ Finset.univ.erase i, uses s' b j = ∑ j ∈ Finset.univ.erase i, uses s b j :=
    Finset.sum_congr rfl fun j hj' => hj j (Finset.ne_of_mem_erase hj') b
  have hs := Finset.add_sum_erase Finset.univ (uses s b) (Finset.mem_univ i)
  have hs' := Finset.add_sum_erase Finset.univ (uses s' b) (Finset.mem_univ i)
  have := h b
  have := hi b
  omega

theorem Inv.refcnt_pos_of_uses (h : Inv s) (hi : 0 < uses s b i) : 0 < (s.buf b).refcnt := by
  have := Finset.add_sum_erase Finset.univ (uses s b) (Finset.mem_univ i)
  rw [h.counted b]
  omega

theorem Inv.refcnt_pos_of_lock (h : Inv s) (hi : (s.buf b).lock = some i) : 0 < (s.buf b).refcnt := by
  refine h.refcnt_pos_of_uses (i := i) ?_
  rw [uses, if_pos hi]
  omega

theorem Knows.lock_or_refs (h : Knows s i k) (hk : k.on = some b) :
    (s.buf b).lock = some i ∨ k.refs b = 1 := by
  rcases k with (_ | ⟨_, _, c⟩) | _ | _ | _ | ⟨_ | _, c⟩ | ⟨_ | _, c⟩ | _
  case user.none | bget => cases hk
  all_goals cases hk
  case acquiresleep | brelse => exact .inr (if_pos rfl)
  case await.bwrite => exact .inl h
  all_goals exact .inl h.1

theorem Inv.refcnt_pos (h : Inv s) (hi : (s.pc i).on = some b) : 0 < (s.buf b).refcnt := by
  rcases (h.knows i).lock_or_refs hi with hl | hr
  · exact h.refcnt_pos_of_lock hl
  · refine h.refcnt_pos_of_uses (i := i) ?_
    rw [uses, hr]
    omega

theorem Inv.assigned_of_on (h : Inv s) (hi : (s.pc i).on = some b) :
    (s.buf b).assigned = true := by
  have hk := h.knows i
  have hlock : (s.buf b).lock = some i → (s.buf b).assigned = true := by
    intro hl
    exact (h.ok b).lock (by simp [hl])
  revert hi hk
  rcases s.pc i with (_ | ⟨_, _, c⟩) | _ | _ | _ | ⟨_ | _, c⟩ | ⟨_ | _, c⟩ | _
  case user.none | bget => intro hi; cases hi
  all_goals
    intro hi hk
    cases hi
  case acquiresleep => exact hk.assigned
  case brelse => exact hk.2
  case await.bwrite => exact hlock hk
  all_goals exact hlock hk.1

/-! ## What the other processes know -/

structure Alike (i : Fin n) (x y : Buf n) : Prop where
  lock : y.lock = some i ↔ x.lock = some i
  assigned : y.assigned = x.assigned
  dev : y.dev = x.dev
  blockno : y.blockno = x.blockno

theorem Alike.refl (i : Fin n) (x : Buf n) : Alike i x x := ⟨Iff.rfl, rfl, rfl, rfl⟩

theorem Names.congr (h : Names s b dev blockno) (hb : Alike i (s.buf b) (s'.buf b)) :
    Names s' b dev blockno :=
  ⟨hb.assigned.trans h.assigned, hb.dev.trans h.dev, hb.blockno.trans h.blockno⟩

/-- What a process knows depends on how its buffer looks to it, and on the flags while it has
locked it, except in the loop of `iderw`. -/
theorem Knows.congr (h : Knows s i k) (hb : ∀ b, k.on = some b → Alike i (s.buf b) (s'.buf b))
    (hf : ∀ b, k.on = some b → (s.buf b).lock = some i → (∀ c, k ≠ .await c b) →
      (s'.buf b).valid = (s.buf b).valid ∧ (s'.buf b).dirty = (s.buf b).dirty) :
    Knows s' i k := by
  rcases k with (_ | ⟨_, _, c⟩) | _ | _ | _ | ⟨_ | _, c⟩ | ⟨_ | _, c⟩ | ⟨c⟩
  case user.none | bget => exact h
  case user.some =>
    obtain ⟨hl, hn, hv⟩ := h
    exact ⟨(hb c rfl).lock.mpr hl, hn.congr (hb c rfl), (hf c rfl hl (by simp)).1.trans hv⟩
  case acquiresleep => exact h.congr (hb _ rfl)
  case test => exact ⟨(hb _ rfl).lock.mpr h.1, h.2.congr (hb _ rfl)⟩
  case iderw.bread =>
    obtain ⟨hl, hn, hv⟩ := h
    exact ⟨(hb c rfl).lock.mpr hl, hn.congr (hb c rfl), (hf c rfl hl (by simp)).1.trans hv⟩
  case iderw.bwrite =>
    obtain ⟨hl, hd⟩ := h
    exact ⟨(hb c rfl).lock.mpr hl, (hf c rfl hl (by simp)).2.trans hd⟩
  case await.bread => exact ⟨(hb _ rfl).lock.mpr h.1, h.2.congr (hb _ rfl)⟩
  case await.bwrite => exact (hb _ rfl).lock.mpr h
  case brelse =>
    exact ⟨fun hl => h.1 ((hb c rfl).lock.mp hl), (hb c rfl).assigned.trans h.2⟩

/-! ## Steps that leave the buffers alone -/

theorem Names.of_buf (h : Names s b dev blockno) (hb : s'.buf = s.buf) : Names s' b dev blockno :=
  ⟨hb ▸ h.assigned, hb ▸ h.dev, hb ▸ h.blockno⟩

theorem Knows.of_buf (h : Knows s i k) (hb : s'.buf = s.buf) : Knows s' i k :=
  h.congr (fun _ _ => hb ▸ Alike.refl ..) fun _ _ _ _ => hb ▸ ⟨rfl, rfl⟩

/-- The buffers, the places of the processes and the history stay; the requests and the disk may
change. -/
theorem Inv.of_buf (h : Inv s) (hlinks : s'.links = s.links) (hbuf : s'.buf = s.buf)
    (hpc : s'.pc = s.pc) (hlast : s'.last = s.last) (hrequested : Requested s')
    (hstored : ∀ dev blockno, dev.toNat < 2 → s'.onDisk dev blockno ≠ s.onDisk dev blockno →
      ∃ b, Names s b dev blockno ∧ (s.buf b).valid = true ∧ (s.buf b).dirty = true) : Inv s' where
  listed := by
    obtain ⟨l, hl⟩ := h.listed
    exact ⟨l, hl.congr hlinks fun _ => hbuf ▸ ⟨rfl, rfl, rfl⟩⟩
  counted := by
    intro b
    simp only [hbuf, uses, hpc]
    exact h.counted b
  knows := by
    rw [hpc]
    exact fun i => (h.knows i).of_buf hbuf
  held := by
    rw [hpc, hbuf]
    exact h.held
  ok := by
    rw [hbuf]
    exact h.ok
  requested := hrequested
  synced := by
    refine ⟨by rw [hbuf, hlast]; exact h.synced.cached, ?_⟩
    intro dev blockno hdev hall
    rw [hlast, ← h.synced.stored dev blockno hdev fun b hn => hbuf ▸ hall b (hn.of_buf hbuf)]
    by_contra hne
    obtain ⟨b, hn, hv, hd⟩ := hstored dev blockno hdev hne
    have := (hall b (hn.of_buf hbuf) (hbuf ▸ hv)).1
    rw [hbuf, hd] at this
    cases this

/-! ## A step of one process -/

structure Move (s s' : Cache n) (i : Fin n) (b : BufId) (x : Buf n) (k : Pc) : Prop where
  buf : s'.buf = update s.buf b x
  pc : s'.pc = update s.pc i k

structure Unrequested (s s' : Cache n) : Prop where
  queue : s'.queue = s.queue
  drive : s'.drive = s.drive
  disk : s'.disk = s.disk

namespace Move

theorem buf_self (m : Move s s' i b x k) : s'.buf b = x := by
  rw [m.buf, update_self]

theorem buf_of_ne (m : Move s s' i b x k) (hc : c ≠ b) : s'.buf c = s.buf c := by
  rw [m.buf, update_of_ne hc]

theorem pc_self (m : Move s s' i b x k) : s'.pc i = k := by
  rw [m.pc, update_self]

theorem pc_of_ne (m : Move s s' i b x k) (hj : j ≠ i) : s'.pc j = s.pc j := by
  rw [m.pc, update_of_ne hj]

theorem names (m : Move s s' i b x k) (ha : x.assigned = true) (hd : x.dev = dev)
    (hb : x.blockno = blockno) : Names s' b dev blockno :=
  ⟨by rw [m.buf_self, ha], by rw [m.buf_self, hd], by rw [m.buf_self, hb]⟩

theorem keys (m : Move s s' i b x k) (hx : x.dev = (s.buf b).dev ∧
      x.blockno = (s.buf b).blockno ∧ x.assigned = (s.buf b).assigned) (c : BufId) :
    (s'.buf c).dev = (s.buf c).dev ∧ (s'.buf c).blockno = (s.buf c).blockno ∧
      (s'.buf c).assigned = (s.buf c).assigned := by
  by_cases hcb : c = b
  · subst hcb
    rw [m.buf_self]
    exact hx
  · rw [m.buf_of_ne hcb]
    exact ⟨rfl, rfl, rfl⟩

theorem counted (m : Move s s' i b x k) (h : ∀ b, (s.buf b).refcnt = ∑ i, uses s b i)
    (hlock : ∀ j, j ≠ i → (x.lock = some j ↔ (s.buf b).lock = some j))
    (hb : x.refcnt + uses s b i =
      (s.buf b).refcnt + ((if x.lock = some i then 1 else 0) + k.refs b))
    (hc : ∀ c, c ≠ b → k.refs c = (s.pc i).refs c) (c : BufId) :
    (s'.buf c).refcnt = ∑ i, uses s' c i := by
  refine counted_move (i := i) h ?_ ?_ c
  · intro j hj c
    by_cases hcb : c = b
    · subst hcb
      simp only [uses, m.buf_self, m.pc_of_ne hj, hlock j hj]
    · simp only [uses, m.buf_of_ne hcb, m.pc_of_ne hj]
  · intro c
    by_cases hcb : c = b
    · subst hcb
      rw [m.buf_self, hb]
      simp only [uses, m.buf_self, m.pc_self]
    · simp only [uses, m.buf_of_ne hcb, m.pc_self, hc c hcb]

theorem knows (m : Move s s' i b x k) (h : ∀ i, Knows s i (s.pc i))
    (hb : ∀ j, j ≠ i → (s.pc j).on = some b → Alike j (s.buf b) x)
    (hf : ∀ j, j ≠ i → (s.buf b).lock = some j → x.valid = (s.buf b).valid ∧ x.dirty = (s.buf b).dirty)
    (hi : Knows s' i k) (j : Fin n) : Knows s' j (s'.pc j) := by
  by_cases hj : j = i
  · subst hj
    rwa [m.pc_self]
  · rw [m.pc_of_ne hj]
    refine (h j).congr ?_ ?_
    · intro c hon
      by_cases hc : c = b
      · subst hc
        rw [m.buf_self]
        exact hb j hj hon
      · rw [m.buf_of_ne hc]
        exact Alike.refl ..
    · intro c _ hl _
      by_cases hc : c = b
      · subst hc
        rw [m.buf_self]
        exact hf j hj hl
      · rw [m.buf_of_ne hc]
        exact ⟨rfl, rfl⟩

theorem held (m : Move s s' i b x k)
    (h : ∀ b i, (s.buf b).lock = some i → (s.buf b).valid = true ∨ (s.pc i).Reads b)
    (hlock : ∀ j, j ≠ i → (x.lock = some j ↔ (s.buf b).lock = some j))
    (hf : ∀ j, j ≠ i → (s.buf b).lock = some j → x.valid = (s.buf b).valid ∧ x.dirty = (s.buf b).dirty)
    (hb : x.lock = some i → x.valid = true ∨ k.Reads b)
    (hc : ∀ c, c ≠ b → (s.pc i).Reads c → k.Reads c) (c : BufId) (j : Fin n)
    (hl : (s'.buf c).lock = some j) : (s'.buf c).valid = true ∨ (s'.pc j).Reads c := by
  by_cases hj : j = i
  · subst hj
    rw [m.pc_self]
    by_cases hcb : c = b
    · subst hcb
      rw [m.buf_self] at hl ⊢
      exact hb hl
    · rw [m.buf_of_ne hcb] at hl ⊢
      exact (h c j hl).imp_right (hc c hcb)
  · rw [m.pc_of_ne hj]
    by_cases hcb : c = b
    · subst hcb
      rw [m.buf_self] at hl ⊢
      have hl' := (hlock j hj).mp hl
      rw [(hf j hj hl').1]
      exact h c j hl'
    · rw [m.buf_of_ne hcb] at hl ⊢
      exact h c j hl

/-- The driver's view of a buffer. -/
def SameRequest (x y : Buf n) : Prop :=
  y.valid = x.valid ∧ y.dirty = x.dirty ∧ y.dev = x.dev ∧ y.blockno = x.blockno ∧
    y.data = x.data ∧ y.lock = x.lock

theorem requested (m : Move s s' i b x k) (u : Unrequested s s') (h : Requested s)
    (hb : b ∈ s.queue → SameRequest (s.buf b) x) (hi : ∀ K c, s.pc i = .await K c → c ∉ s.queue) :
    Requested s' := by
  have hsame : ∀ c ∈ s.queue, SameRequest (s.buf c) (s'.buf c) := by
    intro c hc
    by_cases hcb : c = b
    · subst hcb
      rw [m.buf_self]
      exact hb hc
    · rw [m.buf_of_ne hcb]
      exact ⟨rfl, rfl, rfl, rfl, rfl, rfl⟩
  refine ⟨?_, u.queue ▸ h.nodup, ?_, ?_⟩
  · intro c hc
    rw [u.queue] at hc
    obtain ⟨j, K, hpc, hl, hK⟩ := h.requests c hc
    have hj : j ≠ i := by
      rintro rfl
      exact hi K c hpc hc
    obtain ⟨hv, hd, -, -, -, hl'⟩ := hsame c hc
    refine ⟨j, K, (m.pc_of_ne hj).trans hpc, hl'.trans hl, ?_⟩
    cases K with
    | bread => exact hv.trans hK
    | bwrite => exact hd.trans hK
  · rw [u.queue, u.drive]
    exact h.idle
  · intro c hc
    rw [u.queue] at hc
    have hserves := h.serves c hc
    obtain ⟨-, hd, hdev, hblock, hdata, -⟩ := hsame c (mem_of_mem_head? hc)
    rw [u.drive]
    revert hserves
    cases s.drive <;> simp only [Serves, Cache.onDisk, u.disk, hd, hdev, hblock, hdata] <;> exact id

/-- The data of the buffer, if it has been read, is on the disk. -/
def Clean (x : Buf n) : Prop := x.valid = true → x.dirty = false ∧ x.changed = false

theorem synced (m : Move s s' i b x k) (h : Synced s) (hdisk : s'.disk = s.disk)
    (hlast : s'.last = s.last)
    (hcached : x.valid = true → (s.buf b).valid = true ∧ x.data = (s.buf b).data ∧
      x.dev = (s.buf b).dev ∧ x.blockno = (s.buf b).blockno)
    (hclean : Clean (s.buf b) ∨ ((s.buf b).assigned = true → x.assigned = true) ∧
      x.dev = (s.buf b).dev ∧ x.blockno = (s.buf b).blockno ∧ (Clean x → Clean (s.buf b))) :
    Synced s' where
  cached := by
    intro c hv
    rw [hlast]
    by_cases hcb : c = b
    · subst hcb
      rw [m.buf_self] at hv ⊢
      obtain ⟨hv', hdata, hdev, hblock⟩ := hcached hv
      rw [hdata, hdev, hblock]
      exact h.cached c hv'
    · rw [m.buf_of_ne hcb] at hv ⊢
      exact h.cached c hv
  stored := by
    intro dev blockno hdev hall
    rw [Cache.onDisk, hdisk, hlast]
    refine h.stored dev blockno hdev ?_
    intro c hn
    by_cases hcb : c = b
    · subst hcb
      rcases hclean with hold | ⟨ha, hd, hbl, himp⟩
      · exact hold
      · refine himp ?_
        have hn' : Names s' c dev blockno := by
          refine ⟨?_, ?_, ?_⟩ <;> rw [m.buf_self]
          · exact ha hn.assigned
          · exact hd.trans hn.dev
          · exact hbl.trans hn.blockno
        have := hall c hn'
        rwa [m.buf_self] at this
    · refine fun hv => ?_
      have hc := m.buf_of_ne hcb
      have := hall c ⟨hc ▸ hn.assigned, hc ▸ hn.dev, hc ▸ hn.blockno⟩
      rw [hc] at this
      exact this hv

end Move

end Xv6.Bcache
