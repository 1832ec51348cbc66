import Xv6.VmCalls

/- Every page has one owner.

   1. `allocuvm` and `copyuvm`, with the ways in which they fail.
   2. `pages_have_one_owner`: in every run of the allocator and the functions on page directories, the free pages,
      the directories, the page tables and the user memory of all directories are apart, and no page is mapped twice.

   Between two calls, the books have the directories that exist and the pages that callers hold
   (`Accounts`); a page that `copyuvm` has lost is in no column. -/
namespace Xv6.Vm
open Function Bits Command LinkedQueue Transition
open BitVec (ofNat)

variable {rest : List Ppn}
variable {y : Layout} {s s' : Kernel} {g g' : Ghost} {p t d : Ppn} {E : Stop → Prop}

/-! ## allocuvm -/

/-- The user memory of `pgdir` has the pages from `lo` up to `hi`. -/
def Populated (g : Ghost) (pgdir : Ppn) (lo hi : Nat) : Prop :=
  ∀ v, lo ≤ v → v < hi → ∃ p i j, g.own p = some (.user pgdir i j) ∧ vpn i j = v

theorem Populated.gets {R : Ppn → Owner → Prop} {lo hi : Nat} (h : Populated g d lo hi) (hg : Gets R g g') :
    Populated g' d lo hi := by
  intro v hlo hhi
  obtain ⟨p, i, j, hp, hij⟩ := h v hlo hhi
  refine ⟨p, i, j, ?_, hij⟩
  rcases hg p with heq | ⟨hfree, -⟩
  · exact heq.trans hp
  · cases hp.symm.trans hfree

/-- A page that `kalloc` has returned is mapped. -/
theorem gets_map {i j : Index} {s₁ s₂ : Kernel} {g₁ : Ghost} (hs : Books y s g) (hfree : g.free = p :: rest)
    (hext : Extends d s₁ (g.take p) s₂ g₁) :
    (g₁.map p d i j).kept = g.kept ∧ (g₁.map p d i j).active = g.active ∧
      Gets (fun _ o => o.New d (vpn i j) (vpn i j + 1)) g (g₁.map p d i j) := by
  have hp := own_head hs hfree
  refine ⟨?_, hext.active, fun q => ?_⟩
  · show update g₁.kept p none = _
    rw [hext.kept, update_take_kept hs hfree]
  · by_cases hq : q = p
    · subst hq
      exact .inr ⟨hp, _, update_self .., rfl, le_rfl, Nat.lt_succ_self _⟩
    · have hown : (g₁.map p d i j).own q = g₁.own q := update_of_ne hq ..
      rw [hown, ← Ghost.take_own_of_ne (g := g) hq]
      exact hext.gets _ _ q

theorem own_of_take_user {q d' : Ppn} {i j : Index} (h : (g.take p).own q = some (.user d' i j)) :
    g.own q = some (.user d' i j) := by
  by_cases hq : q = p
  · subst hq
    cases Ghost.take_own.symm.trans h
  · rwa [Ghost.take_own_of_ne hq] at h

theorem pte_fill {x : Page} (hs : Books y s g) (hact : ∀ i, g.active d i) (hp : g.own p = some .free) (a : Vpn) :
    pte ((popped s p).fill p x) d a = pte s d a :=
  pte_fill_of_ne (s := s) hs hact (by rw [hp]; nofun) (by rw [hp]; nofun) a

/-- Directory `d` has got zeroed pages for its user memory from page `lo` up to `v`, and nothing else has changed. -/
structure Growing (y : Layout) (d : Ppn) (lo v : Nat) (s₀ : Kernel) (g₀ : Ghost) (s : Kernel) (g : Ghost) : Prop where
  books : Books y s g
  kept : g.kept = g₀.kept
  active : g.active = g₀.active
  gets : Gets (fun _ o => o.New d lo v) g₀ g
  frame : Frame (fun p o => o.Paging d p) s₀ g₀ s
  outside : ∀ b : Vpn, b.toNat < lo ∨ v ≤ b.toNat → pte s d b = pte s₀ d b
  inside : ∀ b : Vpn, lo ≤ b.toNat → b.toNat < v → ∃ p, pte s d b = mkPte p PTE_WU ∧ s.mem p = zeroPage ∧
    g₀.own p = some .free
  upper : ∀ i : Index, 512 ≤ i.val → i ∈ tables s d → i ∈ tables s₀ d

/-- The user memory from page `lo` up to `hi` that was there, or has been got, is gone. Page tables may have been got.
-/
structure Undone (y : Layout) (d : Ppn) (lo hi : Nat) (s₀ : Kernel) (g₀ : Ghost) (s : Kernel) (g : Ghost) : Prop where
  books : Books y s g
  kept : g.kept = g₀.kept
  active : g.active = g₀.active
  own : ∀ p, g.own p = (g₀.own p).map (Owner.release d lo hi) ∨ g₀.own p = some .free ∧ ∃ i, g.own p = some (.table d i)
  frame : Frame (fun p o => o.Paging d p ∨ o.New d lo hi) s₀ g₀ s
  outside : ∀ b : Vpn, b.toNat < lo ∨ hi ≤ b.toNat → pte s d b = pte s₀ d b
  gone : ∀ b : Vpn, lo ≤ b.toNat → b.toNat < hi → translate s d b = none

section growing

variable {s₀ s₁ : Kernel} {g₀ g₁ : Ghost} {lo v hi : Nat}

theorem Growing.refl (hs : Books y s g) (h : v ≤ lo) : Growing y d lo v s g s g :=
  ⟨hs, rfl, rfl, .refl, .refl, fun _ _ => rfl, fun b hb hb' => absurd hb' (by omega), fun _ _ => id⟩

theorem Growing.safe {P : Ppn → Owner → Prop} (h : Growing y d lo v s₀ g₀ s g) (hp : Safe P g₀ p) : Safe P g p :=
  hp.congr ((h.gets p).imp_right And.left)

theorem Growing.own (h : Growing y d lo v s₀ g₀ s g) (hact : ∀ i, g₀.active d i) {b : Vpn} (hb : b.toNat < 2 ^ 19)
    (hp : pte s d b = mkPte p PTE_WU) : g.own p = some (.user d (pdx b) (ptx b)) := by
  refine own_of_translate h.books (h.active ▸ hact _) hb ?_
  rw [translate_eq_entryOf, hp, entryOf_mkPte]

theorem Growing.populated (h : Growing y d lo v s₀ g₀ s g) (hact : ∀ i, g₀.active d i) (hv : v ≤ 2 ^ 19) :
    Populated g d lo v := by
  intro u hu hu'
  have hnat : (ofNat 20 u).toNat = u := toNat_ofNat_vpn (by omega)
  obtain ⟨p, hp, -, -⟩ := h.inside (ofNat 20 u) (by omega) (by omega)
  exact ⟨p, _, _, h.own hact (by omega) hp, vpn_ofNat (by omega)⟩

theorem tables_popped {mem : Ppn} {x : Page} (hs : Books y s g) (hact : ∀ i, g.active d i)
    (hfree : g.free = mem :: rest) :
    tables ((popped s mem).fill mem x) d = tables s d := by
  ext i
  rw [mem_tables, mem_tables, entry_fill_of_ne (head_ne_dir hs hact hfree).symm]
  rfl

/-- One more page. -/
theorem Growing.step {mem : Ppn} (h : Growing y d lo v s₀ g₀ s g) (hact : ∀ i, g₀.active d i)
    (hlo : lo ≤ v) (hv : v < 2 ^ 19) (hfree : g.free = mem :: rest)
    (hbooks : Books y s₁ (g₁.map mem d (pdx (ofNat 20 v)) (ptx (ofNat 20 v))))
    (hext : Extends d ((popped s mem).fill mem zeroPage) (g.take mem) s₁ g₁)
    (htab : tables s₁ d = insert (pdx (ofNat 20 v)) (tables ((popped s mem).fill mem zeroPage) d))
    (hpte : ∀ b, pte s₁ d b = if b = ofNat 20 v then mkPte mem PTE_WU else pte ((popped s mem).fill mem zeroPage) d b) :
    Growing y d lo (v + 1) s₀ g₀ s₁ (g₁.map mem d (pdx (ofNat 20 v)) (ptx (ofNat 20 v))) := by
  have hacts : ∀ i, g.active d i := fun i => h.active ▸ hact i
  have hmem := own_head h.books hfree
  have hmem₀ : g₀.own mem = some .free := by
    rcases h.gets mem with heq | ⟨hfree, -⟩
    · exact heq ▸ hmem
    · exact hfree
  have hnat : (ofNat 20 v).toNat = v := toNat_ofNat_vpn (by omega)
  have hold : ∀ b, b ≠ ofNat 20 v → pte s₁ d b = pte s d b := by
    intro b hb
    rw [hpte, if_neg hb, pte_fill h.books hacts hmem]
  obtain ⟨hk, ha, hg⟩ := gets_map (i := pdx (ofNat 20 v)) (j := ptx (ofNat 20 v)) h.books hfree hext
  rw [vpn_ofNat (by omega)] at hg
  -- Pages of user memory are not stored to any more.
  have hkeep : ∀ p, Safe (fun p o => o.Paging d p) (g.take mem) p → s₁.mem p = ((popped s mem).fill mem zeroPage).mem
    p := hext.frame
  have htake : ∀ p, p ≠ mem → Safe (fun p o => o.Paging d p) g p → Safe (fun p o => o.Paging d p) (g.take mem) p :=
    fun p hne hp => hp.congr (.inl (Ghost.take_own_of_ne hne))
  refine ⟨hbooks, hk.trans h.kept, ha.trans h.active, ?_, fun p hp => ?_, fun b hb => ?_, fun b hb hb' => ?_,
    fun i hi hmem => ?_⟩
  · refine Gets.trans (fun _ => id) (h.gets.mono fun _ o => Owner.New.mono le_rfl (Nat.le_succ v)) ?_
    exact hg.mono fun _ o => Owner.New.mono hlo le_rfl
  · have hne := (h.safe hp).ne hmem (.inl rfl)
    rw [hkeep p (htake p hne (h.safe hp))]
    exact (update_of_ne hne ..).trans (h.frame p hp)
  · have hbv : b ≠ ofNat 20 v := by
      rintro rfl
      omega
    rw [hold b hbv, h.outside b (by omega)]
  · by_cases hbv : b = ofNat 20 v
    · refine ⟨mem, by rw [hpte, if_pos hbv], ?_, hmem₀⟩
      rw [hkeep mem]
      · exact update_self ..
      · intro o ho
        cases Ghost.take_own.symm.trans ho
        exact ⟨nofun, id⟩
    · have hne : b.toNat ≠ v := fun heq => hbv (BitVec.eq_of_toNat_eq (heq.trans hnat.symm))
      obtain ⟨p, hp, hzero, hfree₀⟩ := h.inside b hb (by omega)
      have hown := h.own hact (by omega) hp
      have hpm : p ≠ mem := by
        rintro rfl
        cases hown.symm.trans hmem
      refine ⟨p, by rw [hold b hbv, hp], ?_, hfree₀⟩
      rw [hkeep p (htake p hpm fun o ho => ?_)]
      · exact (update_of_ne hpm ..).trans hzero
      · cases hown.symm.trans ho
        exact ⟨nofun, id⟩
  · rw [htab, tables_popped h.books hacts hfree, Finset.mem_insert] at hmem
    rcases hmem with rfl | hmem
    · rw [pdx_ofNat (by omega)] at hi
      omega
    · exact h.upper i hi hmem

theorem Growing.undo (h : Growing y d lo v s₀ g₀ s g) (hv : v ≤ hi) (hreleased : Released y d lo hi s g s' g') :
    Undone y d lo hi s₀ g₀ s' g' where
  books := hreleased.books
  kept := hreleased.kept.trans h.kept
  active := hreleased.active.trans h.active
  own p := by
    rw [hreleased.own]
    rcases h.gets p with heq | ⟨hfree, o, ho, hnew⟩
    · exact .inl (by rw [heq])
    · rw [ho]
      match o, hnew with
      | .table d' i, hd => exact .inr ⟨hfree, i, congrArg (fun d => some (Owner.table d i)) hd⟩
      | .user d' i j, hn =>
        rw [hfree]
        exact .inl (congrArg some (if_pos ⟨hn.1, hn.2.1, hn.2.2.trans_le hv⟩))
  frame := by
    refine (h.frame.mono fun _ _ => .inl).trans (fun p hp => h.safe (hp.mono fun _ => .inr)) ?_
    exact hreleased.frame
  outside b hb := by
    rw [hreleased.pte, if_neg (by omega), h.outside b (by omega)]
  gone b hb hb' := by
    rw [translate_eq_entryOf, hreleased.pte]
    split
    · exact entryOf_zero
    · next habsent => exact entryOf_eq_none.mpr (Bool.eq_false_iff.mpr fun hp => habsent ⟨hb, hb', hp⟩)

theorem Released.around {mem : Ppn} {x : Page} (hs : Books y s g) (hact : ∀ i, g.active d i)
    (hfree : g.free = mem :: rest) (h : Released y d lo hi ((popped s mem).fill mem x) (g.take mem) s₁ g₁) :
    Released y d lo hi s g (Books.freed s₁ mem) (g₁.give mem) := by
  have hmem := own_head hs hfree
  have hheld : g₁.own mem = some (.kept .held) := by
    rw [h.own, Ghost.take_own]
    rfl
  have hact₁ : ∀ i, g₁.active d i := fun i => h.active ▸ hact i
  refine ⟨h.books.give hheld, ?_, h.active, fun p => ?_, ?_, fun b => ?_⟩
  · show update g₁.kept mem none = _
    rw [h.kept, update_take_kept hs hfree]
  · show update g₁.own mem (some .free) p = _
    by_cases hp : p = mem
    · subst hp
      rw [update_self, hmem]
      rfl
    · rw [update_of_ne hp, h.own, Ghost.take_own_of_ne hp]
  · have hstored : Frame (fun _ o => o.New d lo hi) s g s₁ :=
      Frame.trans (.popped hmem) (fun p hp => hp.congr (.inl (Ghost.take_own_of_ne (hp.ne hmem (.inl rfl))))) h.frame
    exact hstored.freed hmem (.inl rfl)
  · rw [pte_freed h.books hact₁ (by rw [hheld]; nofun) (by rw [hheld]; nofun), h.pte, pte_fill hs hact hmem]

theorem allocLoop_exact {oldsz newsz n : Nat} (h : Growing y d (roundup oldsz) v s₀ g₀ s g) (hact : ∀ i, g₀.active d i)
    (hold : oldsz ≤ newsz) (hnew : newsz < KERNBASE) (hv : roundup oldsz ≤ v) (hn : v + n = below newsz)
    (hE : (∀ b : Vpn, v ≤ b.toNat → b.toNat < below newsz → translate s₀ d b = none) ∨ E .remap) :
    wp (allocLoop y d oldsz newsz n v) (fun r s' => ∃ g',
      r = newsz ∧ Growing y d (roundup oldsz) (below newsz) s₀ g₀ s' g' ∨
      r = 0 ∧ Undone y d (roundup oldsz) (below newsz) s₀ g₀ s' g') E s := by
  have htop := below_le hnew.le
  induction n generalizing v s g with
  | zero =>
    obtain rfl : v = below newsz := hn
    exact ⟨g, .inl ⟨rfl, h⟩⟩
  | succ n ih =>
    have hs := h.books
    have hacts : ∀ i, g.active d i := fun i => h.active ▸ hact i
    have hnat : (ofNat 20 v).toNat = v := toNat_ofNat_vpn (by omega)
    rw [allocLoop, wp_bind]
    refine kalloc_rule hs (fun _ => ?_) fun mem rest hfree hpop => ?_
    · show wp (deallocuvm y d newsz oldsz >>= _) _ E s
      rw [wp_bind]
      exact wp_imp (deallocuvm_exact hs hacts hnew.le (hold.trans hnew.le)) fun _ s' ⟨_, g', hreleased⟩ =>
        ⟨g', .inr ⟨rfl, h.undo (by omega) hreleased⟩⟩
    · have hfill := hpop.fill_held Ghost.take_own zeroPage
      have hclear : translate ((popped s mem).fill mem zeroPage) d (ofNat 20 v) = none ∨ E .remap := by
        refine hE.imp_left fun hclear => ?_
        rw [translate_eq_entryOf, pte_fill hs hacts (own_head hs hfree), h.outside _ (.inr (by omega)),
          ← translate_eq_entryOf]
        exact hclear _ (by omega) (by omega)
      show wp (setPage mem zeroPage >>= _) _ E (popped s mem)
      rw [wp_bind, wp_setPage, wp_bind]
      refine mapPage_rule hfill hacts (by omega) Ghost.take_own hclear (fun _ _ => ?_) fun s₁ g₁ hs₁ hext htab hpte =>
        ?_
      · show wp (deallocuvm y d newsz oldsz >>= _) _ E _
        rw [wp_bind]
        refine wp_imp (deallocuvm_exact hfill hacts hnew.le (hold.trans hnew.le)) fun _ s₂ ⟨_, g₂, hreleased⟩ => ?_
        have hheld : g₂.own mem = some (.kept .held) := by
          rw [hreleased.own, Ghost.take_own]
          rfl
        rw [wp_bind]
        exact kfree_rule hreleased.books hheld fun _ =>
          ⟨_, .inr ⟨rfl, h.undo (by omega) (hreleased.around hs hacts hfree)⟩⟩
      · exact ih (h.step hact hv (by omega) hfree hs₁ hext htab hpte) (by omega) (by omega)
          (hE.imp_left fun hclear b hb => hclear b (by omega))

end growing

/-- What `allocuvm` returns, and the state it leaves. -/
inductive Allocated (y : Layout) (d : Ppn) (oldsz newsz : Nat) (s : Kernel) (g : Ghost) : Nat → Kernel → Prop
  | tooBig : KERNBASE ≤ newsz → Allocated y d oldsz newsz s g 0 s
  | smaller : newsz < KERNBASE → newsz < oldsz → Allocated y d oldsz newsz s g oldsz s
  | done {s' : Kernel} {g' : Ghost} : newsz < KERNBASE → oldsz ≤ newsz →
      Growing y d (roundup oldsz) (below newsz) s g s' g' → Allocated y d oldsz newsz s g newsz s'
  | noPage {s' : Kernel} {g' : Ghost} : newsz < KERNBASE → oldsz ≤ newsz →
      Undone y d (roundup oldsz) (below newsz) s g s' g' → Allocated y d oldsz newsz s g 0 s'

theorem allocuvm_exact {oldsz newsz : Nat} (hs : Books y s g) (hact : ∀ i, g.active d i)
    (hE : (∀ b : Vpn, roundup oldsz ≤ b.toNat → b.toNat < below newsz → translate s d b = none) ∨ E .remap) :
    wp (allocuvm y d oldsz newsz) (fun r s' => Allocated y d oldsz newsz s g r s') E s := by
  rw [allocuvm, wp_ite, wp_ite]
  refine ⟨.tooBig, fun hnew => ⟨.smaller (by omega), fun hle => ?_⟩⟩
  have hround := roundup_eq_below (show oldsz ≤ KERNBASE by omega)
  have hmono := below_mono (show oldsz ≤ newsz by omega)
  refine wp_imp (allocLoop_exact (.refl hs le_rfl) hact (by omega) (by omega) le_rfl (by omega) hE) ?_
  rintro _ s' ⟨g', ⟨rfl, h⟩ | ⟨rfl, h⟩⟩
  · exact .done (by omega) (by omega) h
  · exact .noPage (by omega) (by omega) h

theorem allocuvm_wp {oldsz newsz : Nat} (hs : Books y s g) (hact : ∀ i, g.active d i)
    (hE : (∀ p i j, g.own p = some (.user d i j) → vpn i j < roundup oldsz ∨ below newsz ≤ vpn i j) ∨ E .remap) :
    wp (allocuvm y d oldsz newsz) (fun r s' => ∃ g', Books y s' g' ∧ g'.kept = g.kept ∧ g'.active = g.active ∧
      (r = 0 → ∀ p, g.own p = some .free → g'.own p = some .free ∨ ∃ i, g'.own p = some (.table d i)) ∧
      Frame (fun p o => o.Of d p) s g s' ∧ (∀ p, Safe (fun p o => o.Of d p) g p → g'.own p = g.own p) ∧
      (r ≠ 0 → newsz < KERNBASE ∧ r = max oldsz newsz ∧ (Populated g d 0 (below oldsz) → Populated g' d 0 (below r)) ∧
        ∀ b : Vpn, 2 ^ 19 ≤ b.toNat → pte s' d b = pte s d b)) E s := by
  by_cases hnew : newsz < KERNBASE
  swap
  · rw [allocuvm, if_pos (by omega)]
    exact ⟨g, hs, rfl, rfl, fun _ _ hp => .inl hp, .refl, fun _ _ => rfl, fun h => (h rfl).elim⟩
  have htop := below_le hnew.le
  refine wp_imp (allocuvm_exact hs hact (hE.imp_left fun hclear b hb hb' => ?_)) fun r s' hr => ?_
  · refine translate_eq_none hs (hact _) (by omega) fun q hq => ?_
    have := hclear q _ _ hq
    rw [vpn_pdx_ptx] at this
    omega
  · cases hr with
    | tooBig h => exact absurd h (by omega)
    | smaller _ hlt =>
      exact ⟨g, hs, rfl, rfl, fun _ _ hp => .inl hp, .refl, fun _ _ => rfl, fun _ => ⟨hnew, by omega, id,
        fun _ _ => rfl⟩⟩
    | @done _ g' _ hle h =>
      have hround := roundup_eq_below (hle.trans hnew.le)
      refine ⟨g', h.books, h.kept, h.active, fun hr p hp => ?_, h.frame.mono fun _ _ => Owner.Paging.of, fun p hp => ?_,
        fun _ => ⟨hnew, by omega, fun hold v hlo hhi => ?_, fun b hb => h.outside b (by omega)⟩⟩
      · -- Nothing is mapped for a size of 0.
        subst hr
        rcases h.gets p with heq | ⟨-, o, ho, hn⟩
        · exact .inl (heq.trans hp)
        · match o, hn with
          | .table d' i, h => exact .inr ⟨i, ho.trans (congrArg (fun d => some (Owner.table d i)) h)⟩
          | .user d' i j, h =>
            have hzero : below 0 = 0 := rfl
            have := h.2
            omega
      · exact (h.gets p).resolve_right fun hgot => (hp _ hgot.1).1 rfl
      · by_cases hv : v < below oldsz
        · exact hold.gets h.gets v hlo hv
        · exact h.populated hact htop v (by omega) hhi
    | @noPage _ g' _ _ h =>
      refine ⟨g', h.books, h.kept, h.active, fun _ p hp => ?_, ?_, fun p hp => ?_, fun hne => (hne rfl).elim⟩
      · rcases h.own p with heq | ⟨-, i, hi⟩
        · rw [heq, hp]
          exact .inl rfl
        · exact .inr ⟨i, hi⟩
      · exact h.frame.mono fun _ _ ho => ho.elim Owner.Paging.of Owner.New.of
      · rcases h.own p with heq | ⟨hfree, -⟩
        · rw [heq, hp.release]
        · exact ((hp _ hfree).1 rfl).elim

/-! ## copyuvm -/

theorem populated_le {v : Nat} (hs : Books y s g) (h : Populated g d 0 v) : v ≤ PHYSTOP / PGSIZE := by
  choose f hf using fun u : Fin v => h u.val (Nat.zero_le _) u.isLt
  have hinj : Function.Injective fun u => (f u).toNat := by
    intro u u' heq
    obtain ⟨i, j, ho, hu⟩ := hf u
    obtain ⟨i', j', ho', hu'⟩ := hf u'
    rw [BitVec.eq_of_toNat_eq heq, ho'] at ho
    cases ho
    exact Fin.ext (hu.symm.trans hu')
  have hcard : (Finset.univ : Finset (Fin v)).card ≤ (Finset.range (PHYSTOP / PGSIZE)).card := by
    refine Finset.card_le_card_of_injOn (fun u => (f u).toNat) (fun u _ => ?_) hinj.injOn
    obtain ⟨i, j, ho, -⟩ := hf u
    exact Finset.mem_coe.mpr (Finset.mem_range.mpr (hs.ram _ _ ho).2)
  rwa [Finset.card_univ, Fintype.card_fin, Finset.card_range] at hcard

/-- With so many free pages `copyuvm` of `top` pages gets a page but no page table for it, when it has copied all of
`k` page tables; `taken` pages have been taken before. -/
def Loses (taken free top : Nat) : Prop := ∃ k, 1024 * k < top ∧ free = taken + 66 + 1025 * k

/-- How many pages were free, if `copyuvm` of `top` pages ends so. -/
def CopyCount (free top : Nat) : Copied → Prop
  | .made _ => 65 + top + (top + 1023) / 1024 ≤ free
  | .noPage => free < 65 + top + (top + 1023) / 1024 ∧ ¬Loses 0 free top
  | .noTable _ => Loses 0 free top

theorem length_take (hfree : g.free = p :: rest) : (g.take p).free.length + 1 = g.free.length := by
  show g.free.tail.length + 1 = _
  rw [hfree]
  rfl

/-- The books while `copyuvm` fills directory `d`, which it has made. -/
structure Filling (d : Ppn) (v : Nat) (g₀ : Ghost) (s : Kernel) (g : Ghost) : Prop where
  kept : g.kept = update g₀.kept d (some .dir)
  active : g.active = (g₀.found d).active
  gets : Gets (fun p o => o.Of d p) g₀ g
  user : ∀ p i j, g.own p = some (.user d i j) → vpn i j < v
  full : Populated g d 0 v
  tables : ∀ i, i ∈ Vm.tables s d ↔ i ∈ kernelTables ∨ i.val < (v + 1023) / 1024
  count : g.free.length + v + (Vm.tables s d).card + 1 = g₀.free.length

theorem Filling.card {v : Nat} {g₀ : Ghost} (h : Filling d v g₀ s g) (hv : v ≤ 57344) :
    (Vm.tables s d).card = 64 + (v + 1023) / 1024 := by
  have heq : Vm.tables s d = kernelTables ∪ Finset.univ.filter fun i : Index => i.val < (v + 1023) / 1024 := by
    ext i
    rw [h.tables, Finset.mem_union, Finset.mem_filter, and_iff_right (Finset.mem_univ i)]
  have hdisjoint : Disjoint kernelTables (Finset.univ.filter fun i : Index => i.val < (v + 1023) / 1024) := by
    rw [Finset.disjoint_left]
    intro i hi hlt
    rw [kernelTables, Finset.mem_filter] at hi
    rw [Finset.mem_filter] at hlt
    omega
  rw [heq, Finset.card_union_of_disjoint hdisjoint, card_kernelTables, Fin.card_filter_val_lt]
  omega

/-- What `copyuvm` has done, if it ends with `r`. -/
def CopyEnds (g₀ g' : Ghost) : Copied → Prop
  | .made d => g₀.own d = some .free ∧ g'.kept = update g₀.kept d (some .dir) ∧
      g'.active = (g₀.found d).active ∧ Gets (fun p o => o.Of d p) g₀ g'
  | .noPage => g'.kept = g₀.kept ∧ g'.active = g₀.active ∧ g'.own = g₀.own
  -- The page is lost: the caller has it in the books, but does not know it.
  | .noTable mem => g₀.own mem = some .free ∧ g'.kept = update g₀.kept mem (some .held) ∧
      g'.active = g₀.active ∧ g'.own = update g₀.own mem (some (.kept .held))

section

variable {v : Nat} {s₀ : Kernel} {g₀ : Ghost} (h₀ : Books y s₀ g₀) (hd : g₀.own d = some .free)

include h₀ hd

theorem Filling.undo_active (h : Filling d v g₀ s g) (ha : ∀ d' i, g'.active d' i ↔ g.active d' i ∧ d' ≠ d) :
    g'.active = g₀.active := by
  funext d' i
  refine propext ((ha d' i).trans ?_)
  rw [h.active]
  refine ⟨fun h => h.1.resolve_left h.2, fun hact => ⟨.inr hact, ?_⟩⟩
  rintro rfl
  cases hd.symm.trans (h₀.own_dir hact)

theorem Filling.undo (h : Filling d v g₀ s g) (hk : g'.kept = update g.kept d none)
    (ha : ∀ d' i, g'.active d' i ↔ g.active d' i ∧ d' ≠ d) (hown : ∀ p, g'.own p = (g.own p).map (Owner.reclaim d p)) :
    CopyEnds g₀ g' .noPage := by
  refine ⟨?_, h.undo_active h₀ hd ha, funext fun p => ?_⟩
  · rw [hk, h.kept, update_idem, update_eq_self_iff, kept_none h₀ hd nofun]
  · rw [hown]
    exact reclaim_gets h₀ (by rw [hd]; nofun) h.gets p

/-- But not the last `kalloc`. -/
theorem Filling.undo_take {mem : Ppn} (hs : Books y s g) (h : Filling d v g₀ s g)
    (hfree : g.free = mem :: rest) (hk : g'.kept = update (g.take mem).kept d none)
    (ha : ∀ d' i, g'.active d' i ↔ g.active d' i ∧ d' ≠ d)
    (hown : ∀ p, g'.own p = ((g.take mem).own p).map (Owner.reclaim d p)) : CopyEnds g₀ g' (.noTable mem) := by
  have hne : mem ≠ d := head_ne_dir hs (fun i => h.active ▸ .inl rfl) hfree
  have hmem : g₀.own mem = some .free := by
    rcases h.gets mem with heq | ⟨hfree, -⟩
    · exact heq ▸ own_head hs hfree
    · exact hfree
  have hkept : update g₀.kept d none = g₀.kept := by
    rw [update_eq_self_iff, kept_none h₀ hd nofun]
  refine ⟨hmem, ?_, h.undo_active h₀ hd ha, funext fun p => ?_⟩
  · rw [hk]
    show update (update g.kept mem _) d none = _
    rw [update_comm hne, h.kept, update_idem, hkept]
  · rw [hown]
    show (update g.own mem _ p).map _ = _
    by_cases hp : p = mem
    · subst hp
      rw [update_self, update_self]
      rfl
    · rw [update_of_ne hp, update_of_ne hp]
      exact reclaim_gets h₀ (by rw [hd]; nofun) h.gets p

theorem copyLoop_wp {pgdir : Ppn} {n : Nat} (hs : Books y s g) (h : Filling d v g₀ s g)
    (hE : Populated g₀ pgdir v (v + n) ∨ E .pteMissing ∧ E .notPresent) :
    wp (copyLoop y pgdir d n v) (fun r s' => ∃ g', Books y s' g' ∧ CopyEnds g₀ g' r ∧
      CopyCount g₀.free.length (v + n) r)
      E s := by
  induction n generalizing v s g with
  | zero =>
    have hcount := h.count
    rw [h.card (populated_le hs h.full)] at hcount
    exact ⟨g, hs, ⟨hd, h.kept, h.active, h.gets⟩, show 65 + v + (v + 1023) / 1024 ≤ _ by omega⟩
  | succ n ih =>
    have htop : v ≤ 57344 := populated_le hs h.full
    have hnat : (ofNat 20 v).toNat = v := toNat_ofNat_vpn (by omega)
    have hvpn := vpn_ofNat (v := v) (by omega)
    have hact : ∀ i, g.active d i := fun i => h.active ▸ .inl rfl
    have hcount := h.count
    have hcard := h.card htop
    -- The parent's memory is as it was.
    have hparent : translate s pgdir (ofNat 20 v) ≠ none ∨ E .pteMissing ∧ E .notPresent := by
      refine hE.imp_left fun hpop => ?_
      obtain ⟨p, i, j, hp, hij⟩ := hpop v (by omega) (by omega)
      have hown : g.own p = some (.user pgdir i j) := by
        rcases h.gets p with heq | ⟨hfree, -⟩
        · exact heq.trans hp
        · cases hp.symm.trans hfree
      rw [translate_of_own hs hown (hij.trans hnat.symm)]
      exact Option.some_ne_none p
    rw [copyLoop, wp_bind, walkpgdir_false]
    cases ht : entry s pgdir (pdx (ofNat 20 v)) with
    | none =>
      rcases hparent with hne | hE
      · exact (hne (by rw [translate, ht]; rfl)).elim
      · exact hE.1
    | some t =>
      show wp (gets _ >>= _) _ E s
      rw [wp_bind, wp_gets]
      by_cases hpte : present (s.mem t (ptx (ofNat 20 v))) = true
      · rw [if_pos hpte, wp_bind]
        refine kalloc_rule hs (fun hnil => ?_) fun mem rest hfree hpop => ?_
        · show wp (freevm y d >>= _) _ E s
          rw [wp_bind]
          refine wp_imp (freevm_wp hs hact) fun _ s' h' => ?_
          obtain ⟨g', hs', hk, ha, hown, -⟩ := h'
          rw [hnil, List.length_nil] at hcount
          refine ⟨g', hs', h.undo h₀ hd hk ha hown, by omega, ?_⟩
          rintro ⟨k, -, hk⟩
          omega
        · have hfill := hpop.fill_held Ghost.take_own
            ((popped s mem).mem (addr (s.mem t (ptx (ofNat 20 v)))))
          have hclear := translate_eq_none (a := ofNat 20 v) hfill (hact _) (by omega) fun q hq => by
            have := h.user q _ _ (own_of_take_user hq)
            omega
          show wp (gets _ >>= _) _ E (popped s mem)
          rw [wp_bind, wp_gets, wp_bind, wp_setPage, wp_bind]
          have htables := tables_popped (x := (popped s mem).mem (addr (s.mem t (ptx (ofNat 20 v))))) hs hact hfree
          have hpdx : (pdx (ofNat 20 v)).val = v / 1024 := pdx_ofNat (by omega)
          have hlength := length_take hfree
          refine mapPage_rule hfill hact (by omega) Ghost.take_own (.inl hclear) (fun hnone hnil => ?_)
            fun s₁ g₁ hs₁ hext htab _ => ?_
          · show wp (freevm y d >>= _) _ E _
            rw [wp_bind]
            refine wp_imp (freevm_wp hfill hact) fun _ s' h' => ?_
            obtain ⟨g', hs', hk, ha, hown, -⟩ := h'
            rw [hnil, List.length_nil] at hlength
            have hnew : ¬(pdx (ofNat 20 v)).val < (v + 1023) / 1024 := by
              intro hlt
              have hmem := (h.tables _).mpr (.inr hlt)
              rw [← htables, mem_tables, hnone] at hmem
              obtain ⟨t, ⟨⟩⟩ := hmem
            refine ⟨g', hs', h.undo_take h₀ hd hs hfree hk ha hown, v / 1024, by omega, by omega⟩
          · obtain ⟨hk, ha, hg⟩ := gets_map (i := pdx (ofNat 20 v)) (j := ptx (ofNat 20 v)) hs hfree hext
            rw [show v + (n + 1) = v + 1 + n by omega]
            refine ih hs₁ ⟨hk.trans h.kept, ha.trans h.active, ?_, ?_, ?_, fun i => ?_, ?_⟩
              (hE.imp_left fun hpop u hu hu' => hpop u (by omega) (by omega))
            · exact h.gets.trans (fun _ => id) (hg.mono fun _ _ => Owner.New.of)
            · intro q i j hq
              rcases hg q with heq | ⟨-, o, ho, hnew⟩
              · have := h.user q i j (heq ▸ hq)
                omega
              · cases ho.symm.trans hq
                have := hnew.2
                omega
            · intro u hu hu'
              by_cases huv : u = v
              · exact ⟨mem, _, _, update_self .., hvpn.trans huv.symm⟩
              · exact h.full.gets hg u hu (by omega)
            · rw [htab, htables, Finset.mem_insert, h.tables, Fin.ext_iff, hpdx, or_left_comm]
              refine or_congr_right ?_
              omega
            · have hext := hext.count
              rw [htables] at hext
              show g₁.free.length + (v + 1) + _ + 1 = _
              omega
      · rcases hparent with hne | hE
        · refine (hne ?_).elim
          rw [translate, ht]
          exact if_neg hpte
        · rw [if_neg hpte]
          exact hE.2

end

theorem copyuvm_wp {pgdir : Ppn} {sz : Nat} (hs : Books y s g)
    (hE : Populated g pgdir 0 (below sz) ∨ E .pteMissing ∧ E .notPresent) :
    wp (copyuvm y pgdir sz) (fun r s' => ∃ g', Books y s' g' ∧ CopyEnds g g' r ∧ CopyCount g.free.length (below sz) r) E
      s := by
  rw [copyuvm, wp_bind]
  refine wp_imp (setupkvm_wp hs) fun r s₁ ⟨g₁, hs₁, h⟩ => ?_
  cases r with
  | none =>
    obtain ⟨hlen, hk, ha, hown, -⟩ := h
    refine ⟨g₁, hs₁, ⟨hk, ha, hown⟩, by omega, ?_⟩
    rintro ⟨k, -, hk⟩
    omega
  | some d =>
    obtain ⟨hd, hk, ha, hg, htab, hlen, -⟩ := h
    rw [← Nat.zero_add (below sz)] at hE
    suffices hfill : Filling d 0 g s₁ g₁ by
      have hloop := copyLoop_wp hs hd hs₁ hfill hE
      rw [Nat.zero_add] at hloop
      exact hloop
    refine ⟨hk, ha, hg, ?_, fun u _ hu => absurd hu (Nat.not_lt_zero u), fun i => ?_, ?_⟩
    · intro p i j hp
      obtain ⟨-, hi, t, ht, -⟩ := (hs₁.owner p _).mp hp
      rw [entry_eq_none htab (.inl hi)] at ht
      cases ht
    · rw [htab]
      exact (or_iff_left (Nat.not_lt_zero _)).symm
    · rw [htab, card_kernelTables]
      omega

/-! ## freerange -/

theorem freerange_wp {lo hi : Nat} (hs : Books y s g) (hhi : hi ≤ 2 ^ 20)
    (hheld : ∀ p ∈ List.range' lo (hi - lo), g.kept (ofNat 20 p) = some .held) :
    wp (freerange y lo hi) (fun _ s' => ∃ g', Books y s' g' ∧ g'.active = g.active ∧
      g'.free.length = g.free.length + (hi - lo) ∧
      ∀ p, g'.kept p = if lo ≤ p.toNat ∧ p.toNat < hi then none else g.kept p) E s := by
  have hmem : ∀ {p}, p ∈ List.range' lo (hi - lo) ↔ lo ≤ p ∧ p < hi := by
    intro p
    rw [List.mem_range'_1]
    omega
  have hlength : (List.range' lo (hi - lo)).length = hi - lo := List.length_range' ..
  have hnodup : (List.range' lo (hi - lo)).Nodup := List.nodup_range' ..
  rw [freerange]
  generalize List.range' lo (hi - lo) = l at *
  -- The pages in `rest` are still held.
  have hloop := wp_each (E := E) (s := s) (l := l) (f := fun p => kfree y (ofNat 20 p))
    (fun rest t => rest.Nodup ∧ (∀ p ∈ rest, p < hi) ∧ ∃ g', Books y t g' ∧ g'.active = g.active ∧
      g'.free.length + rest.length = g.free.length + (hi - lo) ∧
      ∀ p, g'.kept p = if p.toNat ∈ l ∧ p.toNat ∉ rest then none else g.kept p)
    ?_ ⟨hnodup, fun p hp => (hmem.mp hp).2, g, hs, rfl, by rw [hlength], fun p => (if_neg fun h => h.2 h.1).symm⟩
  · refine wp_imp hloop fun _ s' ⟨_, _, g', hs', ha, hcount, hk⟩ => ⟨g', hs', ha, hcount, fun p => ?_⟩
    rw [hk]
    exact if_congr (by simp [hmem]) rfl rfl
  · rintro p rest t hp ⟨hnodup, hbound, g', hs', ha, hcount, hk⟩
    obtain ⟨hnot, hnodup⟩ := List.nodup_cons.mp hnodup
    have hnat : (ofNat 20 p).toNat = p := toNat_ofNat_vpn (by have := hbound p (List.mem_cons_self ..); omega)
    have hown : g'.own (ofNat 20 p) = some (.kept .held) := by
      refine (hs'.owner _ _).mpr ?_
      show g'.kept _ = _
      rw [hk, if_neg fun h => h.2 (by rw [hnat]; exact List.mem_cons_self ..), hheld p hp]
    refine kfree_rule hs' hown fun hgive =>
      ⟨hnodup, fun q hq => hbound q (List.mem_cons_of_mem _ hq), _, hgive, ha, ?_, fun q => ?_⟩
    · show (_ :: g'.free).length + _ = _
      rw [List.length_cons] at hcount ⊢
      omega
    · show update g'.kept _ none q = _
      by_cases hq : q = ofNat 20 p
      · subst hq
        rw [update_self, if_pos (by rw [hnat]; exact ⟨hp, hnot⟩)]
      · have hne : q.toNat ≠ p := fun h => hq (BitVec.eq_of_toNat_eq (h.trans hnat.symm))
        rw [update_of_ne hq, hk]
        exact if_congr (by simp [hne]) rfl rfl

/-! ## Runs -/

/-- The books of a state between two calls. -/
structure Accounts (y : Layout) (s : State) (g : Ghost) : Prop where
  books : Books y s.kernel g
  dirs : ∀ p, s.dirs p = true ↔ g.kept p = some .dir
  held : ∀ p, s.held p = true ↔ g.kept p = some .held
  active : ∀ d i, g.active d i ↔ s.dirs d = true

namespace Accounts

variable {s : State} {t : Kernel} {dirs held : Ppn → Bool}

/-- Page `p` is now kept for `u`. -/
theorem rekept {u : Option Use} (h : Accounts y s g) (hb : Books y t g') (hk : g'.kept = update g.kept p u)
    (hd : ∀ q, dirs q = if q = p then decide (u = some .dir) else s.dirs q)
    (hh : ∀ q, held q = if q = p then decide (u = some .held) else s.held q)
    (ha : ∀ d i, g'.active d i ↔ dirs d = true) : Accounts y ⟨t, dirs, held⟩ g' where
  books := hb
  dirs q := by
    show dirs q = true ↔ _
    rw [hk, hd, update_apply]
    split
    · exact decide_eq_true_iff
    · exact h.dirs q
  held q := by
    show held q = true ↔ _
    rw [hk, hh, update_apply]
    split
    · exact decide_eq_true_iff
    · exact h.held q
  active := ha

theorem keep (h : Accounts y s g) (hb : Books y t g') (hk : g'.kept = g.kept) (ha : g'.active = g.active) :
    Accounts y { s with kernel := t } g' where
  books := hb
  dirs := hk ▸ h.dirs
  held := hk ▸ h.held
  active := ha ▸ h.active

theorem dirs_of_ne (h : Accounts y s g) (hp : g.kept p ≠ some .dir) (q : Ppn) :
    s.dirs q = if q = p then false else s.dirs q := by
  split
  · next hq =>
    subst hq
    exact Bool.eq_false_iff.mpr fun hd => hp ((h.dirs q).mp hd)
  · rfl

theorem held_of_ne (h : Accounts y s g) (hp : g.kept p ≠ some .held) (q : Ppn) :
    s.held q = if q = p then false else s.held q := by
  split
  · next hq =>
    subst hq
    exact Bool.eq_false_iff.mpr fun hd => hp ((h.held q).mp hd)
  · rfl

theorem own_held (h : Accounts y s g) (hp : s.held p = true) : g.own p = some (.kept .held) :=
  (h.books.owner p _).mpr ((h.held p).mp hp)

theorem all_active (h : Accounts y s g) (hd : s.dirs d = true) (i : Index) : g.active d i := (h.active d i).mpr hd

theorem own_user {v : Vpn} (h : Accounts y s g) (hd : s.dirs d = true) (hp : userPage s.kernel d v = some p) :
    g.own p = some (.user d (pdx v) (ptx v)) := by
  unfold userPage at hp
  split at hp
  · next hv =>
    refine h.books.own_user (h.all_active hd _) hv.2.1 (if_pos hv.1) ?_
    exact (if_pos hv.2.2).trans hp
  · cases hp

end Accounts

theorem after_eq_some {α : Type} {s s' : State} {m : M α} {f : α → State → State} {Q : α → Kernel → Prop}
    (hm : wp m Q (fun _ => True) s.kernel) (h : s.after m f = some s') :
    ∃ a t, Q a t ∧ s' = f a { s with kernel := t } := by
  unfold State.after at h
  split at h
  · next a t heq => exact ⟨a, t, wp_ok hm heq, (Option.some.inj h).symm⟩
  · cases h

/-- The books are right for some account of who has which page. -/
def WellFormed (y : Layout) (s : State) : Prop := ∃ g, Accounts y s g

theorem Accounts.founded {s : State} {t : Kernel} (h : Accounts y s g) (hb : Books y t g') (hd : g.own d = some .free)
    (hk : g'.kept = update g.kept d (some .dir)) (ha : g'.active = (g.found d).active) :
    Accounts y { s with kernel := t, dirs := update s.dirs d true } g' := by
  have hnone := kept_none h.books hd nofun
  refine h.rekept hb hk (fun q => update_apply ..) (h.held_of_ne (by rw [hnone]; nofun)) fun d' i => ?_
  rw [ha]
  show d' = d ∨ g.active d' i ↔ _
  rw [h.active, update_apply]
  by_cases hd' : d' = d <;> simp [hd']

/-- The pages from `lo` to `hi` are free now. -/
theorem Accounts.ranged {s : State} {t : Kernel} {lo hi : Nat} (h : Accounts y s g) (hb : Books y t g')
    (ha : g'.active = g.active) (hheld : ∀ p ∈ List.range' lo (hi - lo), s.held (ofNat 20 p) = true)
    (hk : ∀ p, g'.kept p = if lo ≤ p.toNat ∧ p.toNat < hi then none else g.kept p) :
    Accounts y { s with kernel := t, held := fun p => s.held p && (decide (p.toNat < lo) || decide (hi ≤ p.toNat)) }
      g' := by
  have hrange : ∀ {p : Ppn}, lo ≤ p.toNat ∧ p.toNat < hi → g.kept p = some .held := by
    intro p hp
    refine (h.held p).mp ?_
    have hmem := hheld p.toNat (List.mem_range'_1.mpr (by omega))
    rwa [BitVec.ofNat_toNat, BitVec.setWidth_eq] at hmem
  refine ⟨hb, fun p => ?_, fun p => ?_, ha ▸ h.active⟩
  · rw [hk]
    split
    · next hin => simp [h.dirs, hrange hin]
    · exact h.dirs p
  · rw [hk]
    simp only [Bool.and_eq_true, Bool.or_eq_true, decide_eq_true_eq]
    split
    · refine iff_of_false (fun hheld => ?_) nofun
      omega
    · rw [and_iff_left (by omega), h.held]

theorem step_wellFormed {s s' : State} {l : Label} (hs : WellFormed y s) (hstep : step y s l = some s') :
    WellFormed y s' := by
  obtain ⟨g, h⟩ := hs
  cases l with
  | kalloc =>
    simp only [step] at hstep
    obtain ⟨r, t, hr, rfl⟩ := after_eq_some (Q := fun r t => r = none ∧ t = s.kernel ∨
      ∃ p rest, g.free = p :: rest ∧ r = some p ∧ Books y t (g.take p))
      (kalloc_rule h.books (fun _ => .inl ⟨rfl, rfl⟩) fun p rest hfree hb => .inr ⟨p, rest, hfree, rfl, hb⟩) hstep
    rcases hr with ⟨rfl, rfl⟩ | ⟨p, rest, hfree, rfl, hb⟩
    · exact ⟨g, h⟩
    · have hnone := kept_none h.books (own_head h.books hfree) nofun
      exact ⟨_, h.rekept hb rfl (h.dirs_of_ne (by rw [hnone]; nofun)) (fun q => update_apply ..) h.active⟩
  | kfree p =>
    simp only [step] at hstep
    split at hstep
    · next hp =>
      obtain ⟨-, t, hb, rfl⟩ := after_eq_some (Q := fun _ t => Books y t (g.give p))
        (kfree_rule h.books (h.own_held hp) id) hstep
      have hk := (h.held p).mp hp
      exact ⟨_, h.rekept hb rfl (h.dirs_of_ne (by rw [hk]; nofun)) (fun q => update_apply ..) h.active⟩
    · cases hstep
  | freerange lo hi =>
    simp only [step] at hstep
    split at hstep
    · next hp =>
      obtain ⟨-, t, ⟨g', hb, ha, -, hk⟩, rfl⟩ := after_eq_some
        (freerange_wp h.books hp.1 fun p hmem => (h.held _).mp (hp.2 p hmem)) hstep
      exact ⟨g', h.ranged hb ha hp.2 hk⟩
    · cases hstep
  | setupkvm =>
    simp only [step] at hstep
    obtain ⟨r, t, ⟨g', hb, hr⟩, rfl⟩ := after_eq_some (setupkvm_wp h.books) hstep
    cases r with
    | none => exact ⟨g', h.keep hb hr.2.1 hr.2.2.1⟩
    | some d => exact ⟨g', h.founded hb hr.1 hr.2.1 hr.2.2.1⟩
  | allocuvm d oldsz newsz =>
    simp only [step] at hstep
    split at hstep
    · next hd =>
      obtain ⟨r, t, ⟨g', hb, hk, ha, -⟩, rfl⟩ :=
        after_eq_some (allocuvm_wp h.books (h.all_active hd.1) (.inr trivial)) hstep
      exact ⟨g', h.keep hb hk ha⟩
    · cases hstep
  | deallocuvm d oldsz newsz =>
    simp only [step] at hstep
    split at hstep
    · next hd =>
      obtain ⟨r, t, ⟨g', hb, hk, ha, -⟩, rfl⟩ :=
        after_eq_some (deallocuvm_wp h.books (h.all_active hd.1) hd.2.1 hd.2.2) hstep
      exact ⟨g', h.keep hb hk ha⟩
    · cases hstep
  | copyuvm d sz =>
    simp only [step] at hstep
    split at hstep
    · next hd =>
      obtain ⟨r, t, ⟨g', hb, hr, -⟩, rfl⟩ :=
        after_eq_some (copyuvm_wp h.books (.inr ⟨trivial, trivial⟩)) hstep
      cases r with
      | made d' => exact ⟨g', h.founded hb hr.1 hr.2.1 hr.2.2.1⟩
      | noPage => exact ⟨g', h.keep hb hr.1 hr.2.1⟩
      | noTable mem =>
        -- Nobody holds the page any more.
        obtain ⟨hfree, hk, ha, hown⟩ := hr
        have hmem : g'.own mem = some (.kept .held) := by
          rw [hown]
          exact update_self ..
        refine ⟨_, h.keep (hb.lose hmem) ?_ ha⟩
        show update g'.kept mem none = _
        rw [hk, update_idem, update_eq_self_iff, kept_none h.books hfree nofun]
    · cases hstep
  | freevm d =>
    simp only [step] at hstep
    split at hstep
    · next hd =>
      obtain ⟨-, t, ⟨g', hb, hk, ha, -⟩, rfl⟩ := after_eq_some (freevm_wp h.books (h.all_active hd)) hstep
      have hdir := (h.dirs d).mp hd
      refine ⟨g', h.rekept hb hk (fun q => update_apply ..) (h.held_of_ne (by rw [hdir]; nofun)) fun d' i => ?_⟩
      rw [ha, h.active, update_apply]
      by_cases hd' : d' = d <;> simp [hd']
    · cases hstep
  | store p x =>
    simp only [step] at hstep
    split at hstep
    · next hp =>
      obtain ⟨-, t, hb, rfl⟩ := after_eq_some (Q := fun _ t => Books y t g) (m := setPage p x)
        (h.books.fill_held (h.own_held hp) x) hstep
      exact ⟨g, h.keep hb rfl rfl⟩
    · cases hstep
  | write d v x =>
    simp only [step] at hstep
    split at hstep
    · next hd =>
      split at hstep
      · next p hp =>
        have hown := h.own_user hd hp
        obtain ⟨-, t, hb, rfl⟩ := after_eq_some (Q := fun _ t => Books y t g) (m := setPage p x)
          (h.books.fill (h.books.not_free hown nofun) (by rw [hown]; nofun) (by rw [hown]; nofun) x) hstep
        exact ⟨g, h.keep hb rfl rfl⟩
      · cases hstep
    · cases hstep

theorem start_wellFormed (mem : Ppn → Page) : WellFormed y (start y mem) := by
  refine ⟨⟨fun _ _ => False, fun p => if y.IsRam p then some .held else none, [],
    fun p => if y.IsRam p then some (.kept .held) else none⟩, ⟨rfl, fun p o => ?_, fun p o h => ?_, nofun⟩, fun p => ?_,
    fun p => ?_, fun d i => iff_of_false id nofun⟩
  · by_cases hp : y.IsRam p <;> cases o <;> simp [Names, hp]
  · by_cases hp : y.IsRam p
    · exact hp
    · simp [hp] at h
  · by_cases hp : y.IsRam p <;> simp [start, hp]
  · by_cases hp : y.IsRam p <;> simp [start, hp]

def freePages (s : Kernel) : Set Ppn := {p | ∃ l, Chain (nextOf s) none l ∧ p ∈ l}

def dirPages (s : State) : Set Ppn := {d | s.dirs d = true}

def tablePages (s : State) : Set Ppn := {t | ∃ d i, s.dirs d = true ∧ entry s.kernel d i = some t}

/-- The pages of present user entries. -/
def userPages (s : State) : Set Ppn := {p | ∃ d v, s.dirs d = true ∧ userPage s.kernel d v = some p}

def heldPages (s : State) : Set Ppn := {p | s.held p = true}

structure OneOwner (s : State) : Prop where
  /-- The free list ends, and has no page twice. -/
  free : ∃ l, Chain (nextOf s.kernel) none l ∧ l.Nodup
  apart : [freePages s.kernel, dirPages s, tablePages s, userPages s, heldPages s].Pairwise Disjoint
  table : ∀ d d' i i' t, s.dirs d = true → s.dirs d' = true → entry s.kernel d i = some t →
    entry s.kernel d' i' = some t → d = d' ∧ i = i'
  user : ∀ d d' v v' p, s.dirs d = true → s.dirs d' = true → userPage s.kernel d v = some p →
    userPage s.kernel d' v' = some p → d = d' ∧ v = v'

/-- Which of these sets an owner stands for. -/
def Owner.kind : Owner → Nat
  | .free => 0
  | .kept .dir => 1
  | .table _ _ => 2
  | .user _ _ _ => 3
  | .kept .held => 4

theorem oneOwner_of_wellFormed {s : State} (hs : WellFormed y s) : OneOwner s := by
  obtain ⟨g, h⟩ := hs
  have hfree : ∀ p ∈ freePages s.kernel, (g.own p).map Owner.kind = some 0 := by
    rintro p ⟨l, hl, hp⟩
    rw [hl.unique h.books.chain] at hp
    rw [h.books.own_free hp]
    rfl
  have hdir : ∀ p ∈ dirPages s, (g.own p).map Owner.kind = some 1 := by
    intro p hp
    rw [h.books.own_dir (h.all_active hp 0)]
    rfl
  have htable : ∀ p ∈ tablePages s, (g.own p).map Owner.kind = some 2 := by
    rintro p ⟨d, i, hd, hp⟩
    rw [h.books.own_table (h.all_active hd i) hp]
    rfl
  have huser : ∀ p ∈ userPages s, (g.own p).map Owner.kind = some 3 := by
    rintro p ⟨d, v, hd, hp⟩
    rw [h.own_user hd hp]
    rfl
  have hheld : ∀ p ∈ heldPages s, (g.own p).map Owner.kind = some 4 := by
    intro p hp
    rw [h.own_held hp]
    rfl
  have hapart : ∀ {A B : Set Ppn} {m n : Nat}, (∀ p ∈ A, (g.own p).map Owner.kind = some m) →
      (∀ p ∈ B, (g.own p).map Owner.kind = some n) → m ≠ n → Disjoint A B := by
    intro A B m n hA hB hmn
    refine Set.disjoint_left.mpr fun p hp hp' => hmn ?_
    exact Option.some.inj ((hA p hp).symm.trans (hB p hp'))
  refine ⟨⟨g.free, h.books.chain, h.books.chain.nodup⟩, ?_, ?_, ?_⟩
  · simp only [List.pairwise_cons, List.mem_cons, List.not_mem_nil, or_false, forall_eq_or_imp, forall_eq,
      IsEmpty.forall_iff, implies_true, List.Pairwise.nil, and_true]
    refine ⟨⟨?_, ?_, ?_, ?_⟩, ⟨?_, ?_, ?_⟩, ⟨?_, ?_⟩, ?_⟩
    · exact hapart hfree hdir (by decide)
    · exact hapart hfree htable (by decide)
    · exact hapart hfree huser (by decide)
    · exact hapart hfree hheld (by decide)
    · exact hapart hdir htable (by decide)
    · exact hapart hdir huser (by decide)
    · exact hapart hdir hheld (by decide)
    · exact hapart htable huser (by decide)
    · exact hapart htable hheld (by decide)
    · exact hapart huser hheld (by decide)
  · intro d d' i i' t hd hd' ht ht'
    obtain ⟨rfl, rfl⟩ := h.books.table_inj (h.all_active hd' i') ht' (h.all_active hd i) ht
    exact ⟨rfl, rfl⟩
  · intro d d' v v' p hd hd' hp hp'
    have heq := (h.own_user hd hp).symm.trans (h.own_user hd' hp')
    simp only [Option.some.injEq, Owner.user.injEq] at heq
    exact ⟨heq.1, eq_of_pdx_ptx heq.2.1 heq.2.2⟩

theorem pages_have_one_owner (y : Layout) (mem : Ppn → Page) (ls : List Label) :
    Always (step y) OneOwner (start y mem) ls :=
  always_of_inductive (WellFormed y) (fun _ _ _ => step_wellFormed) (fun _ => oneOwner_of_wellFormed)
    (start_wellFormed mem) ls

end Xv6.Vm
