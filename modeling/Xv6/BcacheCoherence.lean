import Xv6.BcacheInvariant

/- Every run keeps the buffer cache coherent.

   1. Each step keeps the invariant: the calls of a process that holds the buffer
      (`Inv.edit`), `bget`, `acquiresleep`, `iderw`, `brelse`, the drive and its
      interrupt. `exec_inv` puts them together.
   2. `cache_coherent`: in every state of every run of disciplined processes on the
      two drives the cache is coherent, and no step reassigns a buffer in use.
   3. `aliased_devices`: the driver takes the lowest bit of `dev` for the drive, so
      device 3 is drive 1 again; a run that uses both leaves a stale buffer. -/
namespace Xv6.Bcache
open Function List Bits Log LinkedRing Transition

variable {got : Option (Word × Word × BufId)}
variable {n : Nat} {s s' : Cache n} {i j : Fin n} {b c : BufId} {x : Buf n} {k k' : Pc} {l : List BufId}
  {dev blockno : Word}

/-! ## Steps of one process -/

/-- All that a step of one process owes. -/
theorem Inv.move (h : Inv s) (m : Move s s' i b x k) (hlisted : ∃ l, Listed s' l)
    (hlock : ∀ j, j ≠ i → (x.lock = some j ↔ (s.buf b).lock = some j))
    (hrefcnt : x.refcnt + uses s b i =
      (s.buf b).refcnt + ((if x.lock = some i then 1 else 0) + k.refs b))
    (hrefs : ∀ c, c ≠ b → k.refs c = (s.pc i).refs c)
    (hnames : ∀ j, j ≠ i → (s.pc j).on = some b → x.assigned = (s.buf b).assigned ∧
      x.dev = (s.buf b).dev ∧ x.blockno = (s.buf b).blockno)
    (hflags : ∀ j, j ≠ i → (s.buf b).lock = some j →
      x.valid = (s.buf b).valid ∧ x.dirty = (s.buf b).dirty)
    (hknows : Knows s' i k) (hheld : x.lock = some i → x.valid = true ∨ k.Reads b)
    (hreads : ∀ c, c ≠ b → (s.pc i).Reads c → k.Reads c) (hok : BufOk x)
    (hrequested : Requested s') (hsynced : Synced s') : Inv s' where
  listed := hlisted
  counted := m.counted h.counted hlock hrefcnt hrefs
  knows := by
    refine m.knows h.knows ?_ hflags hknows
    intro j hj hon
    obtain ⟨ha, hd, hb⟩ := hnames j hj hon
    exact ⟨hlock j hj, ha, hd, hb⟩
  held := m.held h.held hlock hflags hheld hreads
  ok := by
    intro c
    by_cases hcb : c = b
    · subst hcb
      exact m.buf_self ▸ hok
    · exact m.buf_of_ne hcb ▸ h.ok c
  requested := hrequested
  synced := hsynced

theorem move_goto (s : Cache n) (i : Fin n) (b : BufId) (k : Pc) :
    Move s (s.goto i k) i b (s.buf b) k :=
  ⟨(update_eq_self b s.buf).symm, rfl⟩

/-- A process goes on and stores nothing. -/
theorem Inv.goto (h : Inv s) (b : BufId) (hknows : Knows s i k)
    (hrefs : ∀ c, k.refs c = (s.pc i).refs c)
    (hheld : (s.buf b).lock = some i → (s.buf b).valid = true ∨ k.Reads b)
    (hreads : ∀ c, c ≠ b → (s.pc i).Reads c → k.Reads c)
    (hawait : ∀ K c, s.pc i = .await K c → c ∉ s.queue) : Inv (s.goto i k) := by
  obtain ⟨l, hl⟩ := h.listed
  refine h.move (move_goto s i b k) ⟨l, hl.congr rfl fun _ => ⟨rfl, rfl, rfl⟩⟩ (fun _ _ => Iff.rfl)
    ?_ (fun c _ => hrefs c) (fun _ _ _ => ⟨rfl, rfl, rfl⟩) (fun _ _ _ => ⟨rfl, rfl⟩)
    (hknows.of_buf rfl) hheld hreads (h.ok b)
    ((move_goto s i b k).requested ⟨rfl, rfl, rfl⟩ h.requested
      (fun _ => ⟨rfl, rfl, rfl, rfl, rfl, rfl⟩) hawait)
    ((move_goto s i b k).synced h.synced rfl rfl (fun hv => ⟨hv, rfl, rfl, rfl⟩)
      (.inr ⟨id, rfl, rfl, id⟩))
  rw [uses, hrefs b]

theorem Inv.not_queued (h : Inv s) (hl : (s.buf b).lock = some i) (hpc : ∀ K, s.pc i ≠ .await K b) :
    b ∉ s.queue := by
  intro hb
  obtain ⟨j, K, hj, hlj, -⟩ := h.requested.requests b hb
  have hij : i = j := Option.some.inj (hl.symm.trans hlj)
  subst hij
  exact hpc K hj

/-- A process in no call stores to the flags or the data of a buffer that it has locked. -/
theorem Inv.edit (h : Inv s) (m : Move s s' i b x k) (u : Unrequested s s')
    (hlinks : s'.links = s.links)
    (hpc : s.pc i = .user got) (hl : (s.buf b).lock = some i)
    (hx : x.lock = (s.buf b).lock ∧ x.refcnt = (s.buf b).refcnt ∧ x.valid = (s.buf b).valid ∧
      x.assigned = (s.buf b).assigned ∧ x.dev = (s.buf b).dev ∧ x.blockno = (s.buf b).blockno)
    (hk : ∀ c, k.refs c = 0) (hknows : Knows s' i k) (hsynced : Synced s') : Inv s' := by
  obtain ⟨hxl, hxr, hxv, hxa, hxd, hxb⟩ := hx
  have hvalid : (s.buf b).valid = true := (h.held b i hl).resolve_right (by simp [hpc, Pc.Reads])
  have hother : ∀ j, j ≠ i → (s.buf b).lock ≠ some j := by
    rintro j hj hlj
    exact hj (Option.some.inj (hlj.symm.trans hl))
  have hassigned : (s.buf b).assigned = true := (h.ok b).valid hvalid
  have hrefs : ∀ c, (s.pc i).refs c = 0 := by simp [hpc, Pc.refs]
  obtain ⟨l, hlisted⟩ := h.listed
  refine h.move m ⟨l, hlisted.congr hlinks (m.keys ⟨hxd, hxb, hxa⟩)⟩ (fun j _ => hxl ▸ Iff.rfl) ?_ ?_
    (fun _ _ _ => ⟨hxa, hxd, hxb⟩) (fun j hj hlj => absurd hlj (hother j hj)) hknows ?_ ?_ ?_ ?_
    hsynced
  · simp [uses, hxr, hxl, hk, hrefs]
  · simp [hk, hrefs]
  · exact fun _ => .inl (hxv.trans hvalid)
  · simp [hpc, Pc.Reads]
  · exact ⟨fun _ => by simp [hxl, hl], fun _ => hxa.trans hassigned, fun _ => hxv.trans hvalid,
      fun _ => hxa.trans hassigned, fun _ => hxd ▸ (h.ok b).assigned hassigned⟩
  · exact m.requested u h.requested (fun hq => absurd hq (h.not_queued hl (by simp [hpc])))
      (by simp [hpc])

/-! ## `bwrite`, `log_write` and a change of the data -/

theorem Inv.mark (h : Inv s) (m : Move s s' i b { s.buf b with dirty := true, changed := false } k)
    (u : Unrequested s s') (hlinks : s'.links = s.links) (hlast : s'.last = s.last)
    (hpc : s.pc i = .user got) (hl : (s.buf b).lock = some i) (hk : ∀ c, k.refs c = 0)
    (hknows : Knows s' i k) : Inv s' := by
  have hvalid : (s.buf b).valid = true := (h.held b i hl).resolve_right (by simp [hpc, Pc.Reads])
  refine h.edit m u hlinks hpc hl ⟨rfl, rfl, rfl, rfl, rfl, rfl⟩ hk hknows ?_
  refine m.synced h.synced u.disk hlast (fun hv => ⟨hv, rfl, rfl, rfl⟩) (.inr ⟨id, rfl, rfl, ?_⟩)
  intro hclean
  cases (hclean hvalid).1

theorem Inv.bwrite (h : Inv s) (hpc : s.pc i = .user got)
    (hl : (s.buf b).lock = some i) (hs : bwrite s b = .ok s') :
    Inv (s'.goto i (.iderw .bwrite b)) := by
  rw [Bcache.bwrite, if_neg (by simp [hl])] at hs
  cases hs
  refine h.mark ⟨rfl, rfl⟩ ⟨rfl, rfl, rfl⟩ rfl rfl hpc hl (fun _ => rfl) ⟨?_, ?_⟩
  · simpa [Cache.goto, Cache.setBuf] using hl
  · simp [Cache.goto, Cache.setBuf]

theorem Inv.logWrite (h : Inv s) (hpc : s.pc i = .user got)
    (hl : (s.buf b).lock = some i) (hs : logWrite s b = .ok s') :
    Inv (s'.goto i (.user none)) := by
  unfold Bcache.logWrite at hs
  split at hs
  · cases hs
  split at hs
  · cases hs
  cases hs
  exact h.mark ⟨rfl, rfl⟩ ⟨rfl, rfl, rfl⟩ rfl rfl hpc hl (fun _ => rfl) trivial

theorem Inv.change (h : Inv s) (hpc : s.pc i = .user got)
    (hl : (s.buf b).lock = some i) (data : Blk) : Inv ((change s b data).goto i (.user none)) := by
  have hvalid : (s.buf b).valid = true := (h.held b i hl).resolve_right (by simp [hpc, Pc.Reads])
  have hassigned : (s.buf b).assigned = true := (h.ok b).valid hvalid
  have m : Move s ((Bcache.change s b data).goto i (.user none)) i b
      { s.buf b with data, changed := true } (.user none) := ⟨rfl, rfl⟩
  obtain ⟨l, hlisted⟩ := h.listed
  refine h.edit m ⟨rfl, rfl, rfl⟩ rfl hpc hl ⟨rfl, rfl, rfl, rfl, rfl, rfl⟩ (fun _ => rfl) trivial ⟨?_, ?_⟩
  · intro c hv
    by_cases hcb : c = b
    · subst hcb
      rw [m.buf_self]
      exact (store_self ..).symm
    · -- another buffer is another block's
      rw [m.buf_of_ne hcb] at hv ⊢
      rw [h.synced.cached c hv]
      refine (store_of_ne _ _ ?_).symm
      rintro ⟨hd, hb⟩
      exact hcb (hlisted.unique ⟨(h.ok c).valid hv, hd, hb⟩ ⟨hassigned, rfl, rfl⟩)
  · intro dev blockno hdev hall
    have hne : ¬(dev = (s.buf b).dev ∧ blockno = (s.buf b).blockno) := by
      rintro ⟨rfl, rfl⟩
      have := hall b (m.names hassigned rfl rfl)
      rw [m.buf_self] at this
      cases (this hvalid).2
    refine Eq.trans ?_ (store_of_ne _ _ hne).symm
    refine h.synced.stored dev blockno hdev ?_
    intro c hn
    have hcb : c ≠ b := by
      rintro rfl
      exact hne ⟨hn.dev.symm, hn.blockno.symm⟩
    have hc := m.buf_of_ne hcb
    have := hall c ⟨hc ▸ hn.assigned, hc ▸ hn.dev, hc ▸ hn.blockno⟩
    rwa [hc] at this

/-! ## `bread` -/

theorem walk_next_eq (h : Listed s l) (dev blockno : Word) :
    walk s.links.next (fun b => (s.buf b).dev = dev ∧ (s.buf b).blockno = blockno) (NBUF + 1)
      (s.links.next none) = some (l.find? (isFor s dev blockno)) :=
  h.ring.walk_next _ h.length_lt

theorem walk_prev_eq (h : Listed s l) (p : BufId → Bool) :
    walk s.links.prev p (NBUF + 1) (s.links.prev none) = some (l.reverse.find? p) :=
  h.ring.walk_prev p h.length_lt

theorem bget_cases (h : Inv s) (hs : bget s dev blockno = .ok (b, s')) :
    ∃ l, Listed s l ∧
      (l.find? (isFor s dev blockno) = some b ∧
          s' = s.setBuf b { s.buf b with refcnt := (s.buf b).refcnt + 1, assigned := true } ∨
        l.find? (isFor s dev blockno) = none ∧ (s.buf b).refcnt = 0 ∧ (s.buf b).dirty = false ∧
          s' = s.setBuf b { s.buf b with
            dev, blockno, valid := false, dirty := false, refcnt := 1, assigned := true }) := by
  obtain ⟨l, hl⟩ := h.listed
  refine ⟨l, hl, ?_⟩
  rw [bget, walk_next_eq hl, walk_prev_eq hl] at hs
  cases hfind : l.find? (isFor s dev blockno) with
  | some c =>
    rw [hfind] at hs
    cases hs
    exact .inl ⟨rfl, rfl⟩
  | none =>
    rw [hfind] at hs
    cases hfree : l.reverse.find? fun b => (s.buf b).refcnt = 0 ∧ (s.buf b).dirty = false with
    | none =>
      rw [hfree] at hs
      cases hs
    | some c =>
      rw [hfree] at hs
      cases hs
      have hc : (s.buf b).refcnt = 0 ∧ (s.buf b).dirty = false := by
        simpa using List.find?_some hfree
      exact .inr ⟨rfl, hc.1, hc.2, rfl⟩

theorem Inv.lookup (h : Inv s) (hl : Listed s l) (hpc : s.pc i = .bget dev blockno)
    (hb : l.find? (isFor s dev blockno) = some b) :
    Inv ((s.setBuf b { s.buf b with refcnt := (s.buf b).refcnt + 1, assigned := true }).goto i
      (.acquiresleep dev blockno b)) := by
  have hkey : (s.buf b).dev = dev ∧ (s.buf b).blockno = blockno := by
    simpa [isFor] using List.find?_some hb
  have hdev : dev.toNat < 2 := by
    have := h.knows i
    rwa [hpc] at this
  have m : Move s ((s.setBuf b { s.buf b with
      refcnt := (s.buf b).refcnt + 1, assigned := true }).goto i (.acquiresleep dev blockno b)) i b
      { s.buf b with refcnt := (s.buf b).refcnt + 1, assigned := true }
      (.acquiresleep dev blockno b) := ⟨rfl, rfl⟩
  have hlisted := hl.assign (x := { s.buf b with
    refcnt := (s.buf b).refcnt + 1, assigned := true }) hb ⟨rfl, rfl⟩
  refine h.move m ⟨l, hlisted.congr rfl fun _ => ⟨rfl, rfl, rfl⟩⟩ (fun _ _ => Iff.rfl) ?_ ?_ ?_
    (fun _ _ _ => ⟨rfl, rfl⟩) ?_ ?_ ?_ ?_ ?_ ?_
  · simp [uses, hpc, Pc.refs]
    omega
  · intro c hc
    simp [hpc, Pc.refs, hc.symm]
  · -- the others at the buffer know that it has been assigned
    intro j _ hon
    exact ⟨(h.assigned_of_on hon).symm, rfl, rfl⟩
  · exact m.names rfl hkey.1 hkey.2
  · intro hli
    exact (h.held b i hli).imp_right (by simp [hpc, Pc.Reads])
  · simp [hpc, Pc.Reads]
  · have hok := h.ok b
    exact ⟨hok.changed, fun _ => rfl, hok.dirty, fun _ => rfl, fun _ => hkey.1 ▸ hdev⟩
  · exact m.requested ⟨rfl, rfl, rfl⟩ h.requested (fun _ => ⟨rfl, rfl, rfl, rfl, rfl, rfl⟩)
      (by simp [hpc])
  · exact m.synced h.synced rfl rfl (fun hv => ⟨hv, rfl, rfl, rfl⟩) (.inr ⟨fun _ => rfl, rfl, rfl, id⟩)

theorem Inv.recycle (h : Inv s) (hl : Listed s l) (hpc : s.pc i = .bget dev blockno)
    (hnone : l.find? (isFor s dev blockno) = none) (hr : (s.buf b).refcnt = 0)
    (hd : (s.buf b).dirty = false) :
    Inv ((s.setBuf b { s.buf b with
      dev, blockno, valid := false, dirty := false, refcnt := 1, assigned := true }).goto i
      (.acquiresleep dev blockno b)) := by
  have hdev : dev.toNat < 2 := by
    have := h.knows i
    rwa [hpc] at this
  have hfree : ∀ j, (s.buf b).lock ≠ some j := fun j hlj => by
    have := h.refcnt_pos_of_lock hlj
    omega
  have hlock : (s.buf b).lock = none := Option.eq_none_iff_forall_ne_some.mpr hfree
  have hchanged : (s.buf b).changed = false := by
    cases hc : (s.buf b).changed with
    | false => rfl
    | true => exact absurd hlock ((h.ok b).changed hc)
  have m : Move s ((s.setBuf b { s.buf b with
      dev, blockno, valid := false, dirty := false, refcnt := 1, assigned := true }).goto i
      (.acquiresleep dev blockno b)) i b
      { s.buf b with
        dev, blockno, valid := false, dirty := false, refcnt := 1, assigned := true }
      (.acquiresleep dev blockno b) := ⟨rfl, rfl⟩
  refine h.move m ⟨l, (hl.recycle hnone ⟨rfl, rfl⟩).congr rfl fun _ => ⟨rfl, rfl, rfl⟩⟩
    (fun _ _ => Iff.rfl) ?_ ?_ ?_ (fun j _ hlj => absurd hlj (hfree j)) ?_
    (fun hli => absurd hli (hfree i)) ?_ ?_ ?_ ?_
  · simp [uses, hpc, Pc.refs, hlock, hr]
  · intro c hc
    simp [hpc, Pc.refs, hc.symm]
  · -- a process at the buffer would have a reference
    intro j _ hon
    have := h.refcnt_pos hon
    omega
  · exact m.names rfl rfl rfl
  · simp [hpc, Pc.Reads]
  · exact ⟨fun hc => absurd hc (by simp [hchanged]), fun _ => rfl, by rintro ⟨⟩, by rintro ⟨⟩, fun _ => hdev⟩
  · refine m.requested ⟨rfl, rfl, rfl⟩ h.requested (fun hq => ?_) (by simp [hpc])
    obtain ⟨j, -, -, hlj, -⟩ := h.requested.requests b hq
    exact absurd hlj (hfree j)
  · exact m.synced h.synced rfl rfl (by rintro ⟨⟩) (.inl fun _ => ⟨hd, hchanged⟩)

theorem Inv.acquiresleep (h : Inv s) (hpc : s.pc i = .acquiresleep dev blockno b)
    (hl : (s.buf b).lock = none) :
    Inv ((s.setBuf b { s.buf b with lock := some i }).goto i (.test dev blockno b)) := by
  have hn : Names s b dev blockno := by
    have := h.knows i
    rwa [hpc] at this
  have m : Move s ((s.setBuf b { s.buf b with lock := some i }).goto i (.test dev blockno b)) i b
      { s.buf b with lock := some i } (.test dev blockno b) := ⟨rfl, rfl⟩
  obtain ⟨l, hlisted⟩ := h.listed
  refine h.move m ⟨l, hlisted.congr rfl (m.keys ⟨rfl, rfl, rfl⟩)⟩ ?_ ?_ ?_ (fun _ _ _ => ⟨rfl, rfl, rfl⟩)
    (fun _ _ _ => ⟨rfl, rfl⟩) ⟨by rw [m.buf_self], ?_⟩ (fun _ => .inr rfl) ?_ ?_ ?_ ?_
  · intro j hj
    simp [hl, hj.symm]
  · simp [uses, hpc, hl, Pc.refs]
  · intro c hc
    simp [hpc, Pc.refs, hc.symm]
  · exact m.names hn.assigned hn.dev hn.blockno
  · simp [hpc, Pc.Reads]
  · have hok := h.ok b
    exact ⟨fun _ => Option.some_ne_none i, fun _ => hn.assigned, hok.dirty, hok.valid, hok.assigned⟩
  · refine m.requested ⟨rfl, rfl, rfl⟩ h.requested (fun hq => ?_) (by simp [hpc])
    obtain ⟨j, -, -, hlj, -⟩ := h.requested.requests b hq
    rw [hl] at hlj
    cases hlj
  · exact m.synced h.synced rfl rfl (fun hv => ⟨hv, rfl, rfl, rfl⟩) (.inr ⟨id, rfl, rfl, id⟩)

theorem Inv.test (h : Inv s) (hpc : s.pc i = .test dev blockno b) :
    Inv (s.goto i (if (s.buf b).valid then .user (some (dev, blockno, b))
      else .iderw (.bread dev blockno) b)) := by
  obtain ⟨hl, hn⟩ : (s.buf b).lock = some i ∧ Names s b dev blockno := by
    have := h.knows i
    rwa [hpc] at this
  have hreads : ∀ c, c ≠ b → ¬ (s.pc i).Reads c := by
    intro c hc hr
    rw [hpc] at hr
    exact hc hr.symm
  by_cases hv : (s.buf b).valid = true
  · rw [if_pos hv]
    exact h.goto b ⟨hl, hn, hv⟩ (by simp [hpc, Pc.refs]) (fun _ => .inl hv)
      (fun c hc hr => absurd hr (hreads c hc)) (by simp [hpc])
  · rw [if_neg hv]
    exact h.goto b ⟨hl, hn, by simpa using hv⟩ (by simp [hpc, Pc.refs]) (fun _ => .inr rfl)
      (fun c hc hr => absurd hr (hreads c hc)) (by simp [hpc])

/-! ## `iderw` -/

theorem idestart_cases (hs : idestart s b = .ok s') :
    ∃ d, s' = { s with drive := d } ∧ Serves s b d := by
  unfold idestart at hs
  split at hs
  · cases hs
  split at hs
  · rename_i hd
    cases hs
    exact ⟨_, rfl, hd, rfl, rfl, rfl⟩
  · rename_i hd
    cases hs
    exact ⟨_, rfl, Bool.eq_false_iff.mpr hd, rfl, rfl⟩

theorem iderw_cases (hs : iderw s b = .ok s') :
    ∃ d, s' = { s with queue := s.queue ++ [b], drive := d } ∧
      ((s.queue ++ [b]).head? = some b → Serves s b d) ∧
      ((s.queue ++ [b]).head? ≠ some b → d = s.drive) := by
  unfold iderw at hs
  split at hs
  · cases hs
  split at hs
  · cases hs
  split at hs
  · cases hs
  dsimp only at hs
  split at hs
  · rename_i hhead
    obtain ⟨d, rfl, hd⟩ := idestart_cases hs
    refine ⟨d, rfl, fun _ => ?_, fun hne => absurd hhead hne⟩
    cases d <;> exact hd
  · rename_i hhead
    cases hs
    exact ⟨s.drive, rfl, fun hh => absurd hh hhead, fun _ => rfl⟩

theorem Inv.enqueue {K : Caller} {d : Drive} (h : Inv s) (hr : Requests s b i K)
    (hb : b ∉ s.queue) (hhead : (s.queue ++ [b]).head? = some b → Serves s b d)
    (hrest : (s.queue ++ [b]).head? ≠ some b → d = s.drive) :
    Inv { s with queue := s.queue ++ [b], drive := d } := by
  refine h.of_buf rfl rfl rfl rfl ⟨?_, ?_, ?_, ?_⟩ (fun _ _ _ hne => absurd rfl hne)
  · intro c hc
    rcases List.mem_append.mp hc with hc | hc
    · exact h.requested.requests c hc
    · cases List.mem_singleton.mp hc
      exact ⟨i, K, hr⟩
  · exact List.nodup_append.mpr ⟨h.requested.nodup, nodup_singleton b, by grind⟩
  · intro hnil
    simp at hnil
  · intro c hc
    change (s.queue ++ [b]).head? = some c at hc
    by_cases hcb : c = b
    · subst hcb
      have := hhead hc
      cases d <;> exact this
    · have hd : d = s.drive := by
        refine hrest ?_
        rw [hc]
        simpa using hcb
      have hserves : Serves s c s.drive := by
        refine h.requested.serves c ?_
        cases hq : s.queue with
        | nil =>
          rw [hq] at hc
          cases hc
          exact absurd rfl hcb
        | cons => simpa [hq] using hc
      subst hd
      revert hserves
      cases s.drive <;> exact id

theorem Inv.iderw {K : Caller} (h : Inv s) (hpc : s.pc i = .iderw K b) (hs : iderw s b = .ok s') :
    Inv (s'.goto i (.await K b)) := by
  have hk := h.knows i
  rw [hpc] at hk
  have hl : (s.buf b).lock = some i := by
    cases K <;> exact hk.1
  have hreads : ∀ c, (s.pc i).Reads c → (Pc.await K b).Reads c := by
    rw [hpc]
    cases K <;> exact fun _ => id
  have hknows : Knows s i (.await K b) := by
    cases K with
    | bread => exact ⟨hk.1, hk.2.1⟩
    | bwrite => exact hk.1
  have hnot : b ∉ s.queue := h.not_queued hl (by simp [hpc])
  have hgoto : Inv (s.goto i (.await K b)) := by
    refine h.goto b hknows (by simp [hpc, Pc.refs]) ?_ (fun c _ => hreads c) (by simp [hpc])
    exact fun _ => (h.held b i hl).imp_right (hreads b)
  have hr : Requests (s.goto i (.await K b)) b i K := by
    refine ⟨update_self .., hl, ?_⟩
    cases K with
    | bread => exact hk.2.2
    | bwrite => exact hk.2
  obtain ⟨d, rfl, hhead, hrest⟩ := iderw_cases hs
  refine hgoto.enqueue hr hnot (fun hh => ?_) hrest
  have := hhead hh
  cases d <;> exact this

theorem Inv.await {K : Caller} (h : Inv s) (hpc : s.pc i = .await K b)
    (hv : (s.buf b).valid = true) (hd : (s.buf b).dirty = false) : Inv (s.goto i (K.back b)) := by
  have hk := h.knows i
  rw [hpc] at hk
  have hnot : b ∉ s.queue := by
    intro hb
    obtain ⟨j, K', hj, hl, hK'⟩ := h.requested.requests b hb
    cases K' with
    | bread => exact absurd (hv.symm.trans hK') nofun
    | bwrite => exact absurd (hd.symm.trans hK') nofun
  refine h.goto b ?_ ?_ (fun _ => .inl hv) ?_ ?_
  · cases K with
    | bread => exact ⟨hk.1, hk.2, hv⟩
    | bwrite => trivial
  · rw [hpc]
    cases K <;> exact fun _ => rfl
  · intro c hc hr
    rw [hpc] at hr
    cases K with
    | bread => exact absurd hr.symm hc
    | bwrite => exact hr.elim
  · intro K' c hc
    rw [hpc] at hc
    cases hc
    exact hnot

/-! ## `brelse` -/

theorem Inv.brelse (h : Inv s) (hpc : s.pc i = .user got)
    (hl : (s.buf b).lock = some i) (hc : (s.buf b).changed = false) (hs : brelse s b = .ok s') :
    Inv (s'.goto i (.brelse b)) := by
  rw [Bcache.brelse, if_neg (by simp [hl])] at hs
  cases hs
  have hassigned : (s.buf b).assigned = true := (h.ok b).lock (by simp [hl])
  have m : Move s ((s.setBuf b { s.buf b with lock := none }).goto i (.brelse b)) i b
      { s.buf b with lock := none } (.brelse b) := ⟨rfl, rfl⟩
  obtain ⟨l, hlisted⟩ := h.listed
  refine h.move m ⟨l, hlisted.congr rfl (m.keys ⟨rfl, rfl, rfl⟩)⟩ ?_ ?_ ?_ (fun _ _ _ => ⟨rfl, rfl, rfl⟩)
    (fun _ _ _ => ⟨rfl, rfl⟩) ?_ (by rintro ⟨⟩) ?_ ?_ ?_ ?_
  · intro j hj
    simp [hl, hj.symm]
  · simp [uses, hpc, hl, Pc.refs]
  · intro c hc
    simp [hpc, Pc.refs, hc.symm]
  · constructor <;> rw [m.buf_self]
    · rintro ⟨⟩
    · exact hassigned
  · simp [hpc, Pc.Reads]
  · have hok := h.ok b
    exact ⟨fun hc' => absurd (hc.symm.trans hc') Bool.false_ne_true, fun _ => hassigned, hok.dirty, hok.valid,
      hok.assigned⟩
  · exact m.requested ⟨rfl, rfl, rfl⟩ h.requested
      (fun hq => absurd hq (h.not_queued hl (by simp [hpc]))) (by simp [hpc])
  · exact m.synced h.synced rfl rfl (fun hv => ⟨hv, rfl, rfl, rfl⟩) (.inr ⟨id, rfl, rfl, id⟩)

theorem Inv.brelseList (h : Inv s) (hpc : s.pc i = .brelse b) :
    Inv ((brelseList s b).goto i (.user none)) := by
  obtain ⟨hl, hassigned⟩ : (s.buf b).lock ≠ some i ∧ (s.buf b).assigned = true := by
    have := h.knows i
    rwa [hpc] at this
  have hpos : 0 < (s.buf b).refcnt := h.refcnt_pos (i := i) (by rw [hpc]; rfl)
  have m : Move s ((Bcache.brelseList s b).goto i (.user none)) i b
      { s.buf b with refcnt := (s.buf b).refcnt - 1 } (.user none) := ⟨rfl, rfl⟩
  have hlisted : ∃ l, Listed ((Bcache.brelseList s b).goto i (.user none)) l := by
    obtain ⟨l, hlist⟩ := h.listed
    by_cases hz : (s.buf b).refcnt - 1 = 0
    · exact ⟨_, (hlist.toFront hassigned).congr (if_pos hz) (m.keys ⟨rfl, rfl, rfl⟩)⟩
    · exact ⟨l, hlist.congr (if_neg hz) (m.keys ⟨rfl, rfl, rfl⟩)⟩
  refine h.move m hlisted (fun _ _ => Iff.rfl) ?_ ?_ (fun _ _ _ => ⟨rfl, rfl, rfl⟩)
    (fun _ _ _ => ⟨rfl, rfl⟩) trivial ?_ ?_ ?_ ?_ ?_
  · simp [uses, hpc, Pc.refs, hl]
    omega
  · intro c hc
    simp [hpc, Pc.refs, hc.symm]
  · exact fun hli => absurd hli hl
  · simp [hpc, Pc.Reads]
  · have hok := h.ok b
    exact ⟨hok.changed, hok.lock, hok.dirty, hok.valid, hok.assigned⟩
  · exact m.requested ⟨rfl, rfl, rfl⟩ h.requested (fun _ => ⟨rfl, rfl, rfl, rfl, rfl, rfl⟩)
      (by simp [hpc])
  · exact m.synced h.synced rfl rfl (fun hv => ⟨hv, rfl, rfl, rfl⟩) (.inr ⟨id, rfl, rfl, id⟩)

/-! ## The drive -/

theorem and_one_of_lt {dev : Word} (h : dev.toNat < 2) : dev &&& 1#32 = dev := by
  refine BitVec.eq_of_toNat_eq ?_
  rw [BitVec.toNat_and]
  exact (Nat.and_one_is_mod _).trans (Nat.mod_eq_of_lt h)

theorem Inv.first (h : Inv s) (hd : s.drive ≠ .idle) :
    ∃ b q, s.queue = b :: q ∧ Serves s b s.drive := by
  cases hq : s.queue with
  | nil => exact absurd (h.requested.idle hq) hd
  | cons b q => exact ⟨b, q, rfl, h.requested.serves b (by rw [hq]; rfl)⟩

theorem Inv.driveStep (h : Inv s) (hs : driveStep s = .ok s') : Inv s' := by
  unfold Bcache.driveStep at hs
  have hother : ∀ {b c : BufId} {q : List BufId}, s.queue = b :: q → s.queue.head? = some c → c = b := by
    intro b c q hq hc
    rw [hq] at hc
    exact (Option.some.inj hc).symm
  have hnil : ∀ {b : BufId} {q : List BufId}, s.queue = b :: q → s.queue ≠ [] := by
    intro b q hq
    rw [hq]
    nofun
  split at hs
  · rename_i d sector hd
    cases hs
    obtain ⟨b, q, hq, hserves⟩ := h.first (by rw [hd]; nofun)
    rw [hd] at hserves
    obtain ⟨hdirty, rfl, rfl⟩ := hserves
    refine h.of_buf rfl rfl rfl rfl ⟨h.requested.requests, h.requested.nodup,
      fun hq' => absurd hq' (hnil hq), ?_⟩ (fun _ _ _ hne => absurd rfl hne)
    intro c hc
    cases hother hq hc
    exact (if_neg (by simp [hdirty])).mpr rfl
  · rename_i d sector data hd
    cases hs
    obtain ⟨b, q, hq, hserves⟩ := h.first (by rw [hd]; nofun)
    rw [hd] at hserves
    obtain ⟨hdirty, rfl, rfl, rfl⟩ := hserves
    have hvalid : (s.buf b).valid = true := (h.ok b).dirty hdirty
    have hassigned : (s.buf b).assigned = true := (h.ok b).valid hvalid
    refine h.of_buf rfl rfl rfl rfl ⟨h.requested.requests, h.requested.nodup,
      fun hq' => absurd hq' (hnil hq), ?_⟩ ?_
    · intro c hc
      cases hother hq hc
      exact (if_pos hdirty).mpr (store_self ..)
    · -- only the block of the first request changes, and its buffer is dirty
      intro dev blockno hdev hne
      have hkey : (s.buf b).dev = dev ∧ (s.buf b).blockno = blockno := by
        by_contra hkey
        refine hne (store_of_ne _ _ ?_)
        rintro ⟨hd, hb⟩
        rw [and_one_of_lt hdev, and_one_of_lt ((h.ok b).assigned hassigned)] at hd
        exact hkey ⟨hd.symm, hb.symm⟩
      exact ⟨b, ⟨hassigned, hkey.1, hkey.2⟩, hvalid, hdirty⟩
  · cases hs

def served (s : Cache n) (b : BufId) : Buf n :=
  { s.buf b with
    data := if (s.buf b).dirty then (s.buf b).data
      else s.onDisk (s.buf b).dev (s.buf b).blockno
    valid := true
    dirty := false }

theorem ideintr_cases (h : Inv s) (hs : ideintr s = .ok s') :
    ∃ b q d, s.queue = b :: q ∧
      ((s.buf b).dirty = true → s.onDisk (s.buf b).dev (s.buf b).blockno = (s.buf b).data) ∧
      s' = { s.setBuf b (served s b) with queue := q, drive := d } ∧
      (q = [] → d = .idle) ∧ ∀ c, q.head? = some c → Serves s' c d := by
  unfold Bcache.ideintr at hs
  split at hs
  · rename_i port hd hq
    have := h.requested.idle hq
    rw [hd] at this
    cases this
  · rename_i port b q hd hq
    have hserves := h.requested.serves b (by rw [hq]; rfl)
    rw [hd] at hserves
    have hwritten : (s.buf b).dirty = true →
        s.onDisk (s.buf b).dev (s.buf b).blockno = (s.buf b).data := by
      intro hdirty
      rwa [Serves, if_pos hdirty] at hserves
    have hdata : (if (s.buf b).dirty then (s.buf b).data else port.getD (s.buf b).data) =
        if (s.buf b).dirty then (s.buf b).data else s.onDisk (s.buf b).dev (s.buf b).blockno := by
      by_cases hdirty : (s.buf b).dirty = true
      · rw [if_pos hdirty, if_pos hdirty]
      · rw [Serves, if_neg hdirty] at hserves
        rw [if_neg hdirty, if_neg hdirty, hserves, Option.getD_some]
    rw [hdata] at hs
    cases q with
    | nil =>
      cases hs
      exact ⟨b, [], .idle, hq, hwritten, rfl, fun _ => rfl, by rintro _ ⟨⟩⟩
    | cons c q =>
      obtain ⟨d, rfl, hc⟩ := idestart_cases hs
      refine ⟨b, c :: q, d, hq, hwritten, rfl, by rintro ⟨⟩, ?_⟩
      intro c' hc'
      cases hc'
      cases d <;> exact hc
  · cases hs

theorem Inv.ideintr (h : Inv s) (hs : ideintr s = .ok s') : Inv s' := by
  obtain ⟨b, q, d, hq, hwritten, rfl, hidle, hhead⟩ := ideintr_cases h hs
  have hbq : b ∈ s.queue := by rw [hq]; exact mem_cons_self ..
  obtain ⟨i, K, hpc, hl, hK⟩ := h.requested.requests b hbq
  have hassigned : (s.buf b).assigned = true := (h.ok b).lock (by simp [hl])
  have m : Move s { s.setBuf b (served s b) with queue := q, drive := d } i b (served s b) (s.pc i) :=
    ⟨rfl, (update_eq_self i s.pc).symm⟩
  have hother : ∀ j, j ≠ i → (s.buf b).lock ≠ some j := by
    rintro j hj hlj
    exact hj (Option.some.inj (hlj.symm.trans hl))
  have hnodup := h.requested.nodup
  rw [hq] at hnodup
  obtain ⟨hnot, hnodup⟩ := List.nodup_cons.mp hnodup
  obtain ⟨l, hlisted⟩ := h.listed
  refine h.move m ⟨l, hlisted.congr rfl (m.keys ⟨rfl, rfl, rfl⟩)⟩ (fun _ _ => Iff.rfl) rfl
    (fun _ _ => rfl) (fun _ _ _ => ⟨rfl, rfl, rfl⟩) (fun j hj hlj => absurd hlj (hother j hj)) ?_
    (fun _ => .inl rfl) (fun _ _ => id) ?_ ⟨?_, hnodup, hidle, hhead⟩ ⟨?_, ?_⟩
  · -- in the loop of `iderw` a process does not rely on the flags
    rw [hpc]
    refine (hpc ▸ h.knows i).congr ?_ ?_
    · intro c hc
      cases hc
      rw [m.buf_self]
      exact ⟨Iff.rfl, rfl, rfl, rfl⟩
    · intro c hc _ hne
      cases hc
      exact absurd rfl (hne K)
  · have hok := h.ok b
    exact ⟨hok.changed, hok.lock, nofun, fun _ => hassigned, hok.assigned⟩
  · intro c hc
    have hcb : c ≠ b := by
      rintro rfl
      exact hnot hc
    obtain ⟨j, K', hr⟩ := h.requested.requests c (by rw [hq]; exact mem_cons_of_mem _ hc)
    refine ⟨j, K', hr.1, ?_⟩
    rw [m.buf_of_ne hcb]
    exact hr.2
  · intro c hv
    by_cases hcb : c = b
    · subst hcb
      rw [m.buf_self]
      by_cases hdirty : (s.buf c).dirty = true
      · exact (if_pos hdirty).trans (h.synced.cached c ((h.ok c).dirty hdirty))
      · -- it was not read yet, and it is the block's only buffer
        refine (if_neg hdirty).trans (h.synced.stored _ _ ((h.ok c).assigned hassigned) ?_)
        intro c' hn hv'
        cases hlisted.unique hn ⟨hassigned, rfl, rfl⟩
        cases K with
        | bread => exact absurd (hv'.symm.trans hK) nofun
        | bwrite => exact absurd hK hdirty
    · rw [m.buf_of_ne hcb] at hv ⊢
      exact h.synced.cached c hv
  · intro dev blockno hdev hall
    by_cases hkey : Names s b dev blockno ∧ (s.buf b).dirty = true
    · -- the drive has written the data of the buffer
      obtain ⟨⟨-, rfl, rfl⟩, hdirty⟩ := hkey
      exact (hwritten hdirty).trans (h.synced.cached b ((h.ok b).dirty hdirty))
    · refine h.synced.stored dev blockno hdev ?_
      intro c hn hv
      by_cases hcb : c = b
      · subst hcb
        cases K with
        | bread => exact absurd (hv.symm.trans hK) nofun
        | bwrite => exact absurd ⟨hn, hK⟩ hkey
      · have hc := m.buf_of_ne hcb
        have := hall c ⟨hc ▸ hn.assigned, hc ▸ hn.dev, hc ▸ hn.blockno⟩
        rw [hc] at this
        exact this hv

/-! ## Every step -/

theorem step_eq_some {l : Label n} : step s l = some s' ↔ exec s l = .ok s' := by
  rw [step]
  cases exec s l <;> simp [Except.toOption]

theorem map_eq_ok {α β : Type} {e : Except Stop α} {f : α → β} {y : β} (h : e.map f = .ok y) :
    ∃ x, e = .ok x ∧ f x = y := by
  cases e with
  | error => cases h
  | ok x => exact ⟨x, rfl, Except.ok.inj h⟩

theorem Inv.callStep {c : Call} (h : Inv s)
    (hpc : s.pc i = .user got) (hdisc : Disciplined s (.call i c)) (htwo : TwoDrives (.call i c))
    (hs : callStep s i c = .ok s') : Inv s' := by
  cases c with
  | bread dev blockno =>
    cases hs
    -- the buffer that `goto` asks for: any
    refine h.goto 0 htwo (by simp [hpc, Pc.refs]) ?_ (by simp [hpc, Pc.Reads]) (by simp [hpc])
    exact fun hl => (h.held 0 i hl).imp_right (by simp [hpc, Pc.Reads])
  | bwrite b =>
    obtain ⟨t, ht, rfl⟩ := map_eq_ok hs
    exact h.bwrite hpc hdisc ht
  | logWrite b =>
    obtain ⟨t, ht, rfl⟩ := map_eq_ok hs
    exact h.logWrite hpc hdisc ht
  | brelse b =>
    obtain ⟨t, ht, rfl⟩ := map_eq_ok hs
    exact h.brelse hpc hdisc.1 hdisc.2 ht
  | change b data =>
    cases hs
    exact h.change hpc hdisc data

theorem Inv.goStep (h : Inv s) (hpc : s.pc i = k) (hs : goStep s i k = .ok s') : Inv s' := by
  cases k with
  | user => cases hs
  | bget dev blockno =>
    obtain ⟨⟨b, t⟩, ht, rfl⟩ := map_eq_ok hs
    obtain ⟨l, hl, ⟨hb, rfl⟩ | ⟨hnone, hr, hd, rfl⟩⟩ := bget_cases h ht
    · exact h.lookup hl hpc hb
    · exact h.recycle hl hpc hnone hr hd
  | acquiresleep dev blockno b =>
    rw [Bcache.goStep] at hs
    split at hs
    · cases hs
      exact h.acquiresleep hpc ‹_›
    · cases hs
  | test dev blockno b =>
    have := h.test hpc
    rw [Bcache.goStep] at hs
    split at hs <;> cases hs <;> simpa [*] using this
  | iderw K b =>
    obtain ⟨t, ht, rfl⟩ := map_eq_ok hs
    exact h.iderw hpc ht
  | await K b =>
    rw [Bcache.goStep] at hs
    split at hs
    · rename_i hflags
      cases hs
      exact h.await hpc hflags.1 hflags.2
    · cases hs
  | brelse b =>
    cases hs
    exact h.brelseList hpc

theorem Inv.step {l : Label n} (h : Inv s) (hdisc : Disciplined s l) (htwo : TwoDrives l)
    (hs : step s l = some s') : Inv s' := by
  rw [step_eq_some] at hs
  cases l with
  | call i c =>
    cases hpc : s.pc i with
    | user got =>
      rw [exec, hpc] at hs
      exact h.callStep hpc hdisc htwo hs
    | _ =>
      rw [exec, hpc] at hs
      cases hs
  | go i => exact h.goStep rfl hs
  | drive => exact h.driveStep hs
  | ideintr => exact h.ideintr hs
  | log l =>
    cases hs
    refine h.of_buf rfl rfl rfl rfl ⟨h.requested.requests, h.requested.nodup, h.requested.idle, ?_⟩
      (fun _ _ _ hne => absurd rfl hne)
    intro c hc
    have := h.requested.serves c hc
    revert this
    cases s.drive <;> exact id

/-! ## Reassigned buffers -/

theorem Kept.of_setBuf (hbuf : s'.buf = update s.buf b x)
    (hx : 0 < (s.buf b).refcnt ∨ (s.buf b).dirty = true →
      x.dev = (s.buf b).dev ∧ x.blockno = (s.buf b).blockno) : Kept s s' := by
  intro c hc
  rw [hbuf]
  by_cases hcb : c = b
  · subst hcb
    rw [update_self]
    exact hx hc
  · rw [update_of_ne hcb]
    exact ⟨rfl, rfl⟩

theorem Kept.of_buf (hbuf : s'.buf = s.buf) : Kept s s' := by
  intro c _
  rw [hbuf]
  exact ⟨rfl, rfl⟩

theorem Inv.kept {l : Label n} (h : Inv s) (hs : Bcache.step s l = some s') : Kept s s' := by
  rw [step_eq_some] at hs
  cases l with
  | call i c =>
    cases hpc : s.pc i with
    | user got =>
      rw [exec, hpc] at hs
      cases c with
      | bread =>
        cases hs
        exact .of_buf rfl
      | bwrite b =>
        obtain ⟨t, ht, rfl⟩ := map_eq_ok hs
        unfold Bcache.bwrite at ht
        split at ht <;> cases ht
        exact .of_setBuf (b := b) rfl fun _ => ⟨rfl, rfl⟩
      | logWrite b =>
        obtain ⟨t, ht, rfl⟩ := map_eq_ok hs
        unfold Bcache.logWrite at ht
        split at ht
        · cases ht
        split at ht <;> cases ht
        exact .of_setBuf (b := b) rfl fun _ => ⟨rfl, rfl⟩
      | brelse b =>
        obtain ⟨t, ht, rfl⟩ := map_eq_ok hs
        unfold Bcache.brelse at ht
        split at ht <;> cases ht
        exact .of_setBuf (b := b) rfl fun _ => ⟨rfl, rfl⟩
      | change b data =>
        cases hs
        exact .of_setBuf (b := b) rfl fun _ => ⟨rfl, rfl⟩
    | _ =>
      rw [exec, hpc] at hs
      cases hs
  | go i =>
    revert hs
    rw [exec]
    cases s.pc i with
    | user => nofun
    | bget dev blockno =>
      intro hs
      obtain ⟨⟨b, t⟩, ht, rfl⟩ := map_eq_ok hs
      obtain ⟨l, hl, ⟨hb, rfl⟩ | ⟨hnone, hr, hd, rfl⟩⟩ := bget_cases h ht
      · exact .of_setBuf (b := b) rfl fun _ => ⟨rfl, rfl⟩
      · refine .of_setBuf (b := b) rfl fun huse => ?_
        rw [hr, hd] at huse
        exact absurd huse (by simp)
    | acquiresleep dev blockno b =>
      intro hs
      rw [Bcache.goStep] at hs
      split at hs <;> cases hs
      exact .of_setBuf (b := b) rfl fun _ => ⟨rfl, rfl⟩
    | test dev blockno b =>
      intro hs
      rw [Bcache.goStep] at hs
      split at hs <;> cases hs <;> exact .of_buf rfl
    | iderw K b =>
      intro hs
      obtain ⟨t, ht, rfl⟩ := map_eq_ok hs
      obtain ⟨d, rfl, -⟩ := iderw_cases ht
      exact .of_buf rfl
    | await K b =>
      intro hs
      rw [Bcache.goStep] at hs
      split at hs <;> cases hs
      exact .of_buf rfl
    | brelse b =>
      intro hs
      cases hs
      exact .of_setBuf (b := b) rfl fun _ => ⟨rfl, rfl⟩
  | drive =>
    rw [exec, Bcache.driveStep] at hs
    split at hs <;> cases hs <;> exact .of_buf rfl
  | ideintr =>
    obtain ⟨b, q, d, -, -, rfl, -⟩ := ideintr_cases h hs
    exact .of_setBuf (b := b) rfl fun _ => ⟨rfl, rfl⟩
  | log l =>
    cases hs
    exact .of_buf rfl

/-! ## Whole runs -/

theorem binit_ring : IsRing binitLinks (finRange NBUF).reverse := by
  have hpush : ∀ (bs l : List BufId) (L : Links BufId), IsRing L l → bs.Nodup → bs.Disjoint l →
      IsRing (bs.foldl (fun L b => L.pushFront b) L) (bs.reverse ++ l) := by
    intro bs
    induction bs with
    | nil => exact fun _ _ hL _ _ => hL
    | cons b bs ih =>
      intro l L hL hbs hdisj
      obtain ⟨hb, hbs⟩ := List.nodup_cons.mp hbs
      obtain ⟨hbl, hdisj⟩ := List.disjoint_cons_left.mp hdisj
      have := ih (b :: l) (L.pushFront b) (hL.pushFront hbl) hbs
        (List.disjoint_cons_right.mpr ⟨hb, hdisj⟩)
      simpa using this
  have hempty : IsRing (β := BufId) ⟨fun _ => none, fun _ => none⟩ [] := ⟨⟨rfl, rfl⟩, nodup_nil⟩
  simpa [binitLinks] using
    hpush _ [] _ hempty (nodup_finRange NBUF) (disjoint_nil_right _)

theorem start_inv (disk : Word → Word → Blk) (havedisk1 : Bool) (log : LogFields) :
    Inv (start disk havedisk1 log : Cache n) where
  listed := ⟨_, binit_ring, by simp, nofun⟩
  counted := by simp [start, zeroBuf, uses, Pc.refs]
  knows := fun _ => trivial
  held := nofun
  ok := fun _ => ⟨nofun, fun h => absurd rfl h, nofun, nofun, nofun⟩
  requested := ⟨nofun, nodup_nil, fun _ => rfl, nofun⟩
  synced := ⟨nofun, fun _ _ _ _ => rfl⟩

theorem Inv.refcnt_eq (h : Inv s) (b : BufId) :
    (s.buf b).refcnt = (holders s b).card + (waiters s b).card := by
  rw [h.counted b, holders, waiters, Finset.card_filter, Finset.card_filter, ← Finset.sum_add_distrib]
  refine Finset.sum_congr rfl fun i _ => ?_
  -- a process that has given up the lock in `brelse` does not hold it
  have hk := h.knows i
  revert hk
  rw [uses]
  cases s.pc i with
  | brelse c =>
    intro hk
    by_cases hcb : c = b
    · subst hcb
      simp [Pc.refs, Pc.waitsFor, hk.1]
    · simp [Pc.refs, Pc.waitsFor, hcb]
  | acquiresleep dev blockno c =>
    intro _
    by_cases hcb : c = b <;> simp [Pc.refs, Pc.waitsFor, hcb]
  | _ => simp [Pc.refs, Pc.waitsFor]

theorem Inv.coherent (h : Inv s) : Coherent s where
  ring := by
    obtain ⟨l, hl⟩ := h.listed
    exact ⟨l, hl.ring, hl.mem⟩
  unique := by
    obtain ⟨l, hl⟩ := h.listed
    intro b c hb hc hdev hblock
    exact hl.unique ⟨hb, hdev, hblock⟩ ⟨hc, rfl, rfl⟩
  refcnt := h.refcnt_eq
  clean := by
    intro b hl hv hd
    obtain ⟨l, hlisted⟩ := h.listed
    have hassigned := (h.ok b).valid hv
    have hchanged : (s.buf b).changed = false := by
      cases hc : (s.buf b).changed with
      | false => rfl
      | true => exact absurd hl ((h.ok b).changed hc)
    rw [h.synced.cached b hv]
    refine (h.synced.stored _ _ ((h.ok b).assigned hassigned) ?_).symm
    intro c hn _
    cases hlisted.unique hn ⟨hassigned, rfl, rfl⟩
    exact ⟨hd, hchanged⟩
  read := by
    intro i dev blockno b hpc
    have hk := h.knows i
    rw [hpc] at hk
    obtain ⟨hl, hn, hv⟩ := hk
    have hdata := h.synced.cached b hv
    rw [hn.dev, hn.blockno] at hdata
    exact ⟨hl, hn.dev, hn.blockno, hdata⟩

/-- In every state of every run the cache is coherent, and no step gives a buffer that is in use
or dirty another block. -/
theorem cache_coherent (disk : Word → Word → Blk) (havedisk1 : Bool) (log : LogFields)
    {ls : List (Label n)}
    (hls : Along Bcache.step (fun s l => Disciplined s l ∧ TwoDrives l) (start disk havedisk1 log) ls) :
    Always Bcache.step Coherent (start disk havedisk1 log) ls ∧
      Along Bcache.step (fun s l => ∀ s', Bcache.step s l = some s' → Kept s s')
        (start disk havedisk1 log) ls :=
  always_of_invariant Inv (fun _ _ _ h hC hs => h.step hC.1 hC.2 hs) (fun _ h => h.coherent)
    (fun _ _ h _ _ hs => h.kept hs) (start_inv disk havedisk1 log) hls

/-- `bread` of a block that is not cached, from the call to its return. -/
def breads (i : Fin n) (dev blockno : Word) : List (Label n) :=
  [.call i (.bread dev blockno), .go i, .go i, .go i, .go i, .drive, .ideintr, .go i]

def fill (v : Byte) : Blk := fun _ => v

def inTransaction : LogFields := ⟨0, fun _ => 0, 30, 1⟩

/-- One process reads a block, changes it, logs the change and releases the buffer, and another
one waits for it. -/
def logged : List (Label 2) :=
  breads 0 1 5 ++
    [.call 1 (.bread 1 5), .go 1, .call 0 (.change 0 (fill 1)), .call 0 (.logWrite 0),
      .call 0 (.brelse 0), .go 1, .go 0, .go 1]

theorem cache_coherent_logged :
    Along Bcache.step (fun s l => Disciplined s l ∧ TwoDrives l)
        (start (fun _ _ => fill 0) true inTransaction) logged ∧
      (run Bcache.step (start (fun _ _ => fill 0) true inTransaction) logged).isSome = true ∧
      Always Bcache.step Coherent (start (fun _ _ => fill 0) true inTransaction) logged := by
  have hls : Along Bcache.step (fun s l => Disciplined s l ∧ TwoDrives l)
      (start (fun _ _ => fill 0) true inTransaction) logged := by decide +kernel
  exact ⟨hls, by decide +kernel, (cache_coherent _ _ _ hls).1⟩

/-- A block of drive 1 is read as device 1 and released, then changed and written as device 3. -/
def aliased : List (Label 1) :=
  breads 0 1 5 ++ [.call 0 (.brelse 0), .go 0] ++ breads 0 3 5 ++
    [.call 0 (.change 1 (fill 1)), .call 0 (.bwrite 1), .go 0, .drive, .ideintr, .go 0]

/-- The first buffer is unlocked, valid and clean, and it differs from its block on the disk. -/
theorem aliased_devices :
    Along Bcache.step Disciplined (start (fun _ _ => fill 0) true inTransaction) aliased ∧
      ∃ s, run Bcache.step (start (fun _ _ => fill 0) true inTransaction) aliased = some s ∧
        ¬ Coherent s := by
  refine ⟨by decide +kernel, ?_⟩
  have hstale : (run Bcache.step (start (fun _ _ => fill 0) true inTransaction) aliased).map
      (fun s => decide ((s.buf 0).lock = none ∧ (s.buf 0).valid = true ∧ (s.buf 0).dirty = false ∧
        (s.buf 0).data 0 ≠ s.onDisk (s.buf 0).dev (s.buf 0).blockno 0)) = some true := by
    decide +kernel
  obtain ⟨s, hs, hstale⟩ := Option.map_eq_some_iff.mp hstale
  obtain ⟨hl, hv, hd, hne⟩ := of_decide_eq_true hstale
  exact ⟨s, hs, fun h => hne (congrFun (h.clean 0 hl hv hd) 0)⟩

end Xv6.Bcache
