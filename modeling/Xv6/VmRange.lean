import Xv6.VmLeaks

/- The ranges that `allocuvm` and `deallocuvm` act on, and `growproc` (proc.c).

   The rules of these functions (`Released`, `Growing`, `Undone`) are about the books. Here they are said in terms of
   what a process sees: which of its pages are mapped, to what, and what is in them.

   1. `uvm_ranges_exact`: `deallocuvm` unmaps and frees the pages of its range and no others, whichever page tables are
      missing; `allocuvm` maps fresh pages there; the one undoes the other.
   2. `growproc_exact`: a process gets the size it asks for or stays as it is. Two requests go wrong:
      for a size of exactly 0 (`growproc_to_zero`) and for one below 0 (`growproc_below_zero`). The size 0 is what
      `allocuvm` returns when it has failed, and a size below 0 is a large one. -/
namespace Xv6.Vm
open Bits Command LinkedQueue Transition

variable {y : Layout} {s s' : Kernel} {g g' : Ghost} {p d : Ppn} {lo hi oldsz newsz sz sz' : Nat} {n : Int} {a : Vpn}

/-! ## Ranges -/

/-- Page `a` begins in `[PGROUNDUP(lo), hi)`. -/
def InRange (lo hi : Nat) (a : Vpn) : Prop := roundup lo * PGSIZE ≤ a.toNat * PGSIZE ∧ a.toNat * PGSIZE < hi

theorem inRange_iff : InRange lo hi a ↔ roundup lo ≤ a.toNat ∧ a.toNat < below hi := by
  unfold InRange below PGSIZE
  omega

/-- The pages of `R` have been unmapped and freed, and no others. -/
structure Unmaps (d : Ppn) (R : Vpn → Prop) (s s' : Kernel) : Prop where
  gone : ∀ a, R a → translate s' d a = none
  other : ∀ a, ¬R a → pte s' d a = pte s d a
  freed : freePages s' = freePages s ∪ {p | ∃ a, R a ∧ translate s d a = some p}
  memory : ∀ a p, ¬R a → a.toNat < 2 ^ 19 → translate s d a = some p → s'.mem p = s.mem p

/-- Pages from the free list, filled with zeros, have been mapped at `R`, and no others. -/
structure MapsFresh (d : Ppn) (R : Vpn → Prop) (s s' : Kernel) : Prop where
  fresh : ∀ a, R a → ∃ p ∈ freePages s, translate s' d a = some p ∧ s'.mem p = zeroPage
  apart : ∀ a b p, a.toNat < 2 ^ 19 → b.toNat < 2 ^ 19 → translate s' d a = some p → translate s' d b = some p → a = b
  other : ∀ a, ¬R a → pte s' d a = pte s d a
  memory : ∀ a p, ¬R a → a.toNat < 2 ^ 19 → translate s d a = some p → s'.mem p = s.mem p

theorem translate_congr {b : Vpn} (h : pte s' d b = pte s d b) : translate s' d b = translate s d b := by
  rw [translate_eq_entryOf, translate_eq_entryOf, h]

theorem safe_user (hs : Books y s g) (hact : ∀ i, g.active d i) (ha : a.toNat < 2 ^ 19) (hp : translate s d a = some p)
    (hout : ¬(lo ≤ a.toNat ∧ a.toNat < hi)) : Safe (fun p o => o.Paging d p ∨ o.New d lo hi) g p := by
  intro o ho
  cases (own_of_translate hs (hact _) ha hp).symm.trans ho
  refine ⟨nofun, fun h => hout ?_⟩
  obtain h | ⟨-, h⟩ := h
  · exact h.elim
  · rwa [vpn_pdx_ptx] at h

theorem Released.unmaps (hs : Books y s g) (hact : ∀ i, g.active d i) (hhi : hi ≤ 2 ^ 19)
    (h : Released y d lo hi s g s' g') : Unmaps d (fun a => lo ≤ a.toNat ∧ a.toNat < hi) s s' where
  gone a ha := by
    rw [translate_eq_entryOf, h.pte]
    split
    · exact entryOf_zero
    · next habsent => exact entryOf_eq_none.mpr (Bool.eq_false_iff.mpr fun hp => habsent ⟨ha.1, ha.2, hp⟩)
  other a ha := by
    rw [h.pte, if_neg fun hc => ha ⟨hc.1, hc.2.1⟩]
  freed := by
    ext p
    rw [Set.mem_union, mem_freePages h.books, mem_freePages hs, h.own]
    constructor
    · intro hp
      obtain ⟨o, ho, hfree⟩ := Option.map_eq_some_iff.mp hp
      match o with
      | .free => exact .inl ho
      | .kept _ => cases hfree
      | .table _ _ => cases hfree
      | .user d' i j =>
        simp only [Owner.release] at hfree
        split at hfree
        · next hin =>
          obtain ⟨rfl, hlo, hlt⟩ := hin
          have hnat : (BitVec.ofNat 20 (vpn i j)).toNat = vpn i j := toNat_ofNat_vpn (by omega)
          exact .inr ⟨BitVec.ofNat 20 (vpn i j), by omega, translate_of_own hs ho hnat.symm⟩
        · cases hfree
    · rintro (hp | ⟨a, ha, hp⟩)
      · rw [hp]
        rfl
      · rw [own_of_translate hs (hact _) (by omega) hp]
        exact congrArg some (if_pos ⟨rfl, by rw [vpn_pdx_ptx]; exact ha⟩)
  memory a p ha hlt hp := h.frame p ((safe_user hs hact hlt hp ha).mono fun _ => .inr)

theorem Growing.mapsFresh (hs : Books y s g) (hact : ∀ i, g.active d i)
    (h : Growing y d lo hi s g s' g') : MapsFresh d (fun a => lo ≤ a.toNat ∧ a.toNat < hi) s s' where
  fresh a ha := by
    obtain ⟨p, hp, hzero, hfree⟩ := h.inside a ha.1 ha.2
    refine ⟨p, (mem_freePages hs).mpr hfree, ?_, hzero⟩
    rw [translate_eq_entryOf, hp, entryOf_mkPte]
  apart a b p ha hb hap hbp := by
    have hact' : ∀ i, g'.active d i := fun i => h.active ▸ hact i
    have heq := (own_of_translate h.books (hact' _) ha hap).symm.trans (own_of_translate h.books (hact' _) hb hbp)
    simp only [Option.some.injEq, Owner.user.injEq, true_and] at heq
    exact eq_of_pdx_ptx heq.1 heq.2
  other a ha := h.outside a (by omega)
  memory a p ha hlt hp := h.frame p ((safe_user hs hact hlt hp ha).mono fun _ => .inl)

/-- For every page directory of a kernel whose books are right, and all sizes: `deallocuvm` unmaps and frees exactly the
pages of its range. `allocuvm`, if nothing is mapped there and it succeeds, maps fresh pages exactly there, and
`deallocuvm` then unmaps them again. -/
theorem uvm_ranges_exact {s : State} (h : WellFormed y s) (hd : s.dirs d = true) (hold : oldsz ≤ KERNBASE)
    (hnew : newsz ≤ KERNBASE) :
    (newsz < oldsz → wp (deallocuvm y d oldsz newsz) (fun r t => r = newsz ∧ Unmaps d (InRange newsz oldsz) s.kernel t)
      (fun _ => False) s.kernel) ∧
    (oldsz ≤ newsz → (∀ a, InRange oldsz newsz a → translate s.kernel d a = none) →
      wp (allocuvm y d oldsz newsz) (fun r t => r ≠ 0 → r = newsz ∧ MapsFresh d (InRange oldsz newsz) s.kernel t ∧
        wp (deallocuvm y d newsz oldsz) (fun _ u => ∀ a : Vpn, a.toNat < 2 ^ 19 → translate u d a = translate
          s.kernel d a)
          (fun _ => False) t) (fun _ => False) s.kernel) := by
  obtain ⟨g, h⟩ := h
  have hact := h.all_active hd
  have hrange : ∀ {lo hi}, InRange lo hi = fun a : Vpn => roundup lo ≤ a.toNat ∧ a.toNat < below hi :=
    funext fun a => propext inRange_iff
  simp only [hrange]
  constructor
  · intro hlt
    refine wp_imp (deallocuvm_exact h.books hact hold hnew) ?_
    rintro _ t ⟨rfl, g', hreleased⟩
    exact ⟨min_eq_right hlt.le, hreleased.unmaps h.books hact (below_le hold)⟩
  · intro hle hclear
    refine wp_imp (allocuvm_exact h.books hact (.inl fun b hb hb' => hclear b ⟨hb, hb'⟩)) fun r t hr hne => ?_
    cases hr with
    | tooBig => exact absurd rfl hne
    | smaller _ hlt => exact absurd hlt (by omega)
    | noPage => exact absurd rfl hne
    | @done _ g' _ _ hgrown =>
      have hfresh := hgrown.mapsFresh h.books hact
      have hact' : ∀ i, g'.active d i := fun i => hgrown.active ▸ hact i
      refine ⟨rfl, hfresh, wp_imp (deallocuvm_exact hgrown.books hact' hnew hold) ?_⟩
      rintro _ u ⟨-, g'', hreleased⟩ a ha
      have hgone := hreleased.unmaps hgrown.books hact' (below_le hnew)
      by_cases hin : roundup oldsz ≤ a.toNat ∧ a.toNat < below newsz
      · rw [hgone.gone a hin, hclear a hin]
      · rw [translate_congr (hgone.other a hin), translate_congr (hfresh.other a hin)]

/-! ## growproc -/

/-- The pages of a process of size `sz` are mapped, and none above. -/
structure Sized (s : Kernel) (d : Ppn) (sz : Nat) : Prop where
  top : sz ≤ KERNBASE
  mapped : ∀ a : Vpn, a.toNat < 2 ^ 19 → ((translate s d a).isSome ↔ a.toNat < below sz)

/-- The process has the same pages with the same contents. -/
def SameMemory (s : Kernel) (d : Ppn) (s' : Kernel) : Prop :=
  ∀ a : Vpn, a.toNat < 2 ^ 19 → translate s' d a = translate s d a ∧ ∀ p, translate s d a = some p → s'.mem p = s.mem p

/-- The process has size `sz'` now: what it had below that is as it was, and what it has got is zero. -/
structure Grown (d : Ppn) (s : Kernel) (sz : Nat) (s' : Kernel) (sz' : Nat) : Prop where
  sized : Sized s' d sz'
  old : ∀ a : Vpn, a.toNat < below (min sz sz') →
    translate s' d a = translate s d a ∧ ∀ p, translate s d a = some p → s'.mem p = s.mem p
  fresh : ∀ (a : Vpn) (p : Ppn), a.toNat < 2 ^ 19 → below sz ≤ a.toNat → translate s' d a = some p → s'.mem p = zeroPage

theorem Sized.eq_none (h : Sized s d sz) (ha : a.toNat < 2 ^ 19) (hle : below sz ≤ a.toNat) :
    translate s d a = none := by
  rw [← Option.not_isSome_iff_eq_none, h.mapped a ha]
  omega

theorem Sized.lt (hs : Books y s g) (hact : ∀ i, g.active d i) (h : Sized s d sz) : sz ≤ PHYSTOP := by
  have hfull : Populated g d 0 (below sz) := by
    intro v _ hv
    have htop := below_le h.top
    have hnat : (BitVec.ofNat 20 v).toNat = v := toNat_ofNat_vpn (by omega)
    obtain ⟨p, hp⟩ := Option.isSome_iff_exists.mp ((h.mapped (BitVec.ofNat 20 v) (by omega)).mpr (by omega))
    exact ⟨p, _, _, own_of_translate hs (hact _) (by omega) hp, vpn_ofNat (by omega)⟩
  have hle := populated_le hs hfull
  simp only [below, PHYSTOP, PGSIZE] at *
  omega

theorem Grown.refl (h : Sized s d sz) : Grown d s sz s sz where
  sized := h
  old _ _ := ⟨rfl, fun _ _ => rfl⟩
  fresh a p ha hle hp := by
    rw [h.eq_none ha hle] at hp
    cases hp

theorem MapsFresh.grown (hsz : Sized s d sz) (hle : sz ≤ sz') (htop : sz' ≤ KERNBASE)
    (h : MapsFresh d (fun a => below sz ≤ a.toNat ∧ a.toNat < below sz') s s') : Grown d s sz s' sz' where
  sized := by
    refine ⟨htop, fun a ha => ?_⟩
    have hmono := below_mono hle
    by_cases hin : below sz ≤ a.toNat ∧ a.toNat < below sz'
    · obtain ⟨p, -, hp, -⟩ := h.fresh a hin
      rw [hp]
      exact iff_of_true rfl hin.2
    · rw [translate_congr (h.other a hin), hsz.mapped a ha]
      omega
  old a ha := by
    rw [min_eq_left hle] at ha
    have hout : ¬(below sz ≤ a.toNat ∧ a.toNat < below sz') := by omega
    have hlt := below_le hsz.top
    exact ⟨translate_congr (h.other a hout), fun p => h.memory a p hout (by omega)⟩
  fresh a p ha hlo hp := by
    by_cases hin : below sz ≤ a.toNat ∧ a.toNat < below sz'
    · obtain ⟨q, -, hq, hzero⟩ := h.fresh a hin
      rw [hq] at hp
      cases hp
      exact hzero
    · rw [translate_congr (h.other a hin), hsz.eq_none ha hlo] at hp
      cases hp

theorem Unmaps.grown (hsz : Sized s d sz) (hle : sz' ≤ sz)
    (h : Unmaps d (fun a => below sz' ≤ a.toNat ∧ a.toNat < below sz) s s') : Grown d s sz s' sz' where
  sized := by
    refine ⟨hle.trans hsz.top, fun a ha => ?_⟩
    have hmono := below_mono hle
    by_cases hin : below sz' ≤ a.toNat ∧ a.toNat < below sz
    · rw [h.gone a hin]
      exact iff_of_false nofun (by omega)
    · rw [translate_congr (h.other a hin), hsz.mapped a ha]
      omega
  old a ha := by
    rw [min_eq_right hle] at ha
    have hout : ¬(below sz' ≤ a.toNat ∧ a.toNat < below sz) := by omega
    have hlt := below_le (hle.trans hsz.top)
    exact ⟨translate_congr (h.other a hout), fun p => h.memory a p hout (by omega)⟩
  fresh a p ha hlo hp := by
    rw [translate_congr (h.other a (by omega)), hsz.eq_none ha hlo] at hp
    cases hp

theorem Undone.same (hs : Books y s g) (hact : ∀ i, g.active d i) (hsz : Sized s d sz)
    (h : Undone y d (below sz) hi s g s' g') : SameMemory s d s' := by
  intro a ha
  by_cases hin : below sz ≤ a.toNat ∧ a.toNat < hi
  · have hnone := hsz.eq_none ha hin.1
    rw [h.gone a hin.1 hin.2, hnone]
    exact ⟨rfl, nofun⟩
  · exact ⟨translate_congr (h.outside a (by omega)), fun p hp => h.frame p (safe_user hs hact ha hp hin)⟩

/-- What `growproc(n)` does to a process of size `sz`: what was asked, or nothing. -/
def AllOrNothing (d : Ppn) (sz : Nat) (n : Int) (s : Kernel) : Option Nat → Kernel → Prop
  | some sz', s' => (sz' : Int) = sz + n ∧ sz' < KERNBASE ∧ Grown d s sz s' sz'
  | none, s' => SameMemory s d s'

theorem growproc_up (hs : Books y s g) (hact : ∀ i, g.active d i) (hsz : Sized s d sz) (hn : 0 < n)
    (hint : n < 2 ^ 31) :
    wp (growproc y d sz n) (AllOrNothing d sz n s) (fun _ => False) s := by
  have htop := hsz.lt hs hact
  have hround := roundup_eq_below hsz.top
  obtain ⟨newsz, hnewsz⟩ : ∃ newsz : Nat, (newsz : Int) = sz + n := ⟨((sz : Int) + n).toNat, by omega⟩
  have hmod : (((sz : Int) + n) % 2 ^ 32).toNat = newsz := by
    simp only [PHYSTOP] at htop
    omega
  simp only [growproc, hmod, if_pos hn]
  rw [wp_bind]
  by_cases hbig : KERNBASE ≤ newsz
  · rw [allocuvm, if_pos hbig]
    exact fun a _ => ⟨rfl, fun _ _ => rfl⟩
  have hlt : below newsz ≤ 2 ^ 19 := below_le (by omega)
  refine wp_imp (allocuvm_exact hs hact (.inl fun b hb hb' => hsz.eq_none (by omega) (by omega))) fun r s' hr => ?_
  cases hr with
  | tooBig h => exact absurd h hbig
  | smaller _ h => exact absurd h (by omega)
  | done hlt hle h =>
    rw [hround] at h
    have hne : newsz ≠ 0 := by omega
    rw [if_neg hne]
    exact ⟨hnewsz, hlt, (h.mapsFresh hs hact).grown hsz hle hlt.le⟩
  | noPage _ _ h =>
    rw [hround] at h
    exact h.same hs hact hsz

theorem growproc_down (hs : Books y s g) (hact : ∀ i, g.active d i) (hsz : Sized s d sz) (hn : n < 0)
    (hle : 0 ≤ sz + n) :
    wp (growproc y d sz n) (fun r s' => ∃ sz' : Nat, (sz' : Int) = sz + n ∧ r = (if sz' = 0 then none else some sz') ∧
      Grown d s sz s' sz') (fun _ => False) s := by
  have htop := hsz.top
  obtain ⟨newsz, hnewsz⟩ : ∃ newsz : Nat, (newsz : Int) = sz + n := ⟨((sz : Int) + n).toNat, by omega⟩
  have hmod : (((sz : Int) + n) % 2 ^ 32).toNat = newsz := by
    simp only [KERNBASE] at htop
    omega
  simp only [growproc, hmod, if_neg (show ¬0 < n by omega), if_pos hn]
  rw [wp_bind]
  refine wp_imp (deallocuvm_exact hs hact htop (by omega)) ?_
  rintro r s' ⟨rfl, g', h⟩
  rw [roundup_eq_below (by omega)] at h
  rw [min_eq_right (by omega)]
  exact ⟨newsz, hnewsz, rfl, (h.unmaps hs hact (below_le htop)).grown hsz (by omega)⟩

theorem growproc_to_zero (hs : Books y s g) (hact : ∀ i, g.active d i) (hsz : Sized s d sz) (hpos : 0 < sz) :
    wp (growproc y d sz (-sz)) (fun r s' => r = none ∧ Grown d s sz s' 0) (fun _ => False) s := by
  refine wp_imp (growproc_down hs hact hsz (by omega) (by omega)) ?_
  rintro r s' ⟨sz', hsz', rfl, h⟩
  obtain rfl : sz' = 0 := by omega
  exact ⟨rfl, h⟩

/-- A request for a size below 0 is one for a size that is larger than the present one: nothing is done, and that
is reported as success, unless the size is 0. -/
theorem growproc_below_zero (htop : sz ≤ KERNBASE) (hlt : (sz : Int) + n < 0) (hint : -2 ^ 31 ≤ n) :
    growproc y d sz n s = .ok (if sz = 0 then none else some sz, s) := by
  have hbig : sz ≤ (((sz : Int) + n) % 2 ^ 32).toNat := by
    simp only [KERNBASE] at htop
    omega
  simp only [growproc, if_neg (show ¬0 < n by omega), if_pos (show n < 0 by omega), deallocuvm, if_pos hbig]
  rfl

theorem growproc_meets (hs : Books y s g) (hact : ∀ i, g.active d i) (hsz : Sized s d sz)
    (hint : -2 ^ 31 ≤ n ∧ n < 2 ^ 31) (hask : n < 0 → sz = 0 ∨ 0 < sz + n) :
    wp (growproc y d sz n) (AllOrNothing d sz n s) (fun _ => False) s := by
  have htop := hsz.lt hs hact
  obtain hn | rfl | hn := Int.lt_trichotomy n 0
  · obtain rfl | hpos := hask hn
    · have hcall := growproc_below_zero (y := y) (d := d) (s := s) hsz.top (by omega) hint.1
      rw [wp, hcall]
      exact fun a _ => ⟨rfl, fun _ _ => rfl⟩
    · refine wp_imp (growproc_down hs hact hsz hn hpos.le) ?_
      rintro r t ⟨sz', hsz', rfl, hgrown⟩
      rw [if_neg (by omega)]
      refine ⟨hsz', ?_, hgrown⟩
      simp only [PHYSTOP, KERNBASE] at *
      omega
  · have hcall : growproc y d sz 0 s = .ok (some sz, s) := rfl
    rw [wp, hcall]
    refine ⟨by omega, ?_, .refl hsz⟩
    simp only [PHYSTOP, KERNBASE] at *
    omega
  · exact growproc_up hs hact hsz hn hint.2

theorem Grown.not_same (h : Grown d s sz s' 0) (hsz : Sized s d sz) (hpos : 0 < sz) : ¬SameMemory s d s' := by
  intro hsame
  have hbelow : 0 < below sz := by
    simp only [below, PGSIZE]
    omega
  have hmapped := (hsz.mapped 0 (by decide)).mpr hbelow
  rw [← (hsame 0 (by decide)).1, h.sized.eq_none (by decide) (by decide)] at hmapped
  cases hmapped

/-- Any other request is missed: all pages go and that is called a failure, or nothing is done and that is called
success. -/
theorem growproc_misses (hs : Books y s g) (hact : ∀ i, g.active d i) (hsz : Sized s d sz) (hint : -2 ^ 31 ≤ n)
    (hpos : 0 < sz) (hle : (sz : Int) + n ≤ 0) :
    wp (growproc y d sz n) (fun r s' => ¬AllOrNothing d sz n s r s') (fun _ => False) s := by
  obtain hlt | heq := Int.lt_or_eq_of_le hle
  · have hcall := growproc_below_zero (y := y) (d := d) (s := s) hsz.top hlt hint
    rw [if_neg (by omega)] at hcall
    rw [wp, hcall]
    rintro ⟨hsize, -⟩
    omega
  · obtain rfl : n = -sz := by omega
    refine wp_imp (growproc_to_zero hs hact hsz hpos) ?_
    rintro r s' ⟨rfl, hgrown⟩
    exact hgrown.not_same hsz hpos

/-- For every process and every `int`: `growproc` does what was asked or nothing exactly if the process is not to be
shrunk to a size of 0 or less than that. -/
theorem growproc_exact {s : State} (h : WellFormed y s) (hd : s.dirs d = true) (hsz : Sized s.kernel d sz)
    (hint : -2 ^ 31 ≤ n ∧ n < 2 ^ 31) :
    wp (growproc y d sz n) (AllOrNothing d sz n s.kernel) (fun _ => False) s.kernel ↔
      (n < 0 → sz = 0 ∨ 0 < sz + n) := by
  obtain ⟨g, h⟩ := h
  have hact := h.all_active hd
  refine ⟨fun hwp => ?_, growproc_meets h.books hact hsz hint⟩
  by_contra hask
  obtain ⟨r, t, hcall, hmiss⟩ := wp_total (growproc_misses h.books hact hsz hint.1 (by omega) (by omega))
  rw [wp, hcall] at hwp
  exact hmiss hwp

/-! ## A process of one page -/

theorem one_page_process (mem : Ppn → Page) : ∃ d s g,
    run (step smallLayout) (start smallLayout mem) [.freerange 258 425, .setupkvm, .allocuvm d 0 PGSIZE] = some s ∧
      Accounts smallLayout s g ∧ s.dirs d = true ∧ Sized s.kernel d PGSIZE := by
  obtain ⟨d, s, g, hrun, h, hdirs, -, hmapped, -⟩ :=
    grown_dir mem (n := 102) (by decide) (show PGSIZE < KERNBASE by decide) (by decide)
  exact ⟨d, s, g, hrun, h, hdirs, by decide, hmapped⟩

/-- The directory of that process: a second page and a half are mapped, and the first page is unmapped. -/
theorem uvm_ranges_exact_one_page : ∃ d s,
    run (step smallLayout) (start smallLayout fun _ => zeroPage) [.freerange 258 425, .setupkvm,
      .allocuvm d 0 PGSIZE] = some s ∧
    wp (deallocuvm smallLayout d PGSIZE 0) (fun r t => r = 0 ∧ Unmaps d (InRange 0 PGSIZE) s.kernel t)
      (fun _ => False) s.kernel ∧
    wp (allocuvm smallLayout d PGSIZE 10000) (fun r t => r ≠ 0 → r = 10000 ∧ MapsFresh d (InRange PGSIZE 10000) s.kernel
      t ∧
      wp (deallocuvm smallLayout d 10000 PGSIZE) (fun _ u => ∀ a : Vpn, a.toNat < 2 ^ 19 → translate u d a = translate
        s.kernel d a)
        (fun _ => False) t) (fun _ => False) s.kernel := by
  obtain ⟨d, s, g, hrun, h, hdirs, hsized⟩ := one_page_process fun _ => zeroPage
  refine ⟨d, s, hrun, (uvm_ranges_exact ⟨g, h⟩ hdirs (by decide) (by decide)).1 (by decide), ?_⟩
  refine (uvm_ranges_exact ⟨g, h⟩ hdirs (by decide) (by decide)).2 (by decide) fun a ha => ?_
  rw [inRange_iff] at ha
  have hone : roundup PGSIZE = 1 ∧ below PGSIZE = 1 ∧ below 10000 = 3 := by decide
  exact hsized.eq_none (by omega) (by omega)

theorem growproc_exact_one_page : ∃ d s,
    run (step smallLayout) (start smallLayout fun _ => zeroPage) [.freerange 258 425, .setupkvm,
      .allocuvm d 0 PGSIZE] = some s ∧
    wp (growproc smallLayout d PGSIZE (-1)) (AllOrNothing d PGSIZE (-1) s.kernel) (fun _ => False) s.kernel := by
  obtain ⟨d, s, g, hrun, h, hdirs, hsized⟩ := one_page_process fun _ => zeroPage
  exact ⟨d, s, hrun, (growproc_exact ⟨g, h⟩ hdirs hsized (by decide)).mpr (by decide)⟩

/-- A process of one page asks for one page less: it gets -1, and its page is gone. It asks for two pages less: it gets
0, and has its page. -/
theorem growproc_misreports : ∃ d s t,
    run (step smallLayout) (start smallLayout fun _ => zeroPage) [.freerange 258 425, .setupkvm,
      .allocuvm d 0 PGSIZE] = some s ∧
    Sized s.kernel d PGSIZE ∧ growproc smallLayout d PGSIZE (-4096) s.kernel = .ok (none, t) ∧
      ¬SameMemory s.kernel d t ∧
    growproc smallLayout d PGSIZE (-8192) s.kernel = .ok (some PGSIZE, s.kernel) := by
  obtain ⟨d, s, g, hrun, h, hdirs, hsized⟩ := one_page_process fun _ => zeroPage
  obtain ⟨_, t, hcall, rfl, hgrown⟩ := wp_total (growproc_to_zero h.books (h.all_active hdirs) hsized (by decide))
  exact ⟨d, s, t, hrun, hsized, hcall, hgrown.not_same hsized (by decide), growproc_below_zero (by decide)
    (by decide) (by decide)⟩

end Xv6.Vm
