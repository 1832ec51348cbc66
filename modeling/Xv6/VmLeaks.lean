import Xv6.VmPages

/- Calls that run out of memory.

   If `mappages` fails in `copyuvm`, the page that was to be mapped is on no list. `goto bad` frees the new directory,
   and `mem` is not in it. To tell when, the memory is counted: `setupkvm` takes 65 pages, and 1024 pages of user
   memory take 1025, the first of them two, so that the `kalloc` that fails is the one for a page table if 66 pages are
   free, or 66 and a multiple of 1025 (`Loses`).

   1. `failed_calls_give_back`: a call that fails leaves the free pages as they were, but for page tables that
      `allocuvm` has attached to the caller's directory; `copyuvm` and `fork` exactly if the number of free pages is
      none of those.
   2. With 66 free pages one is lost (`copyuvm_loses_page`). -/
namespace Xv6.Vm
open Function List Bits Command LinkedQueue Transition
open BitVec (ofNat)

variable {y : Layout} {s t : Kernel} {g g' : Ghost} {p d : Ppn} {E : Stop → Prop}

theorem mem_freePages (hs : Books y s g) : p ∈ freePages s ↔ g.own p = some .free := by
  rw [hs.owner]
  constructor
  · rintro ⟨l, hl, hp⟩
    rw [hl.unique hs.chain] at hp
    exact hp
  · exact fun hp => ⟨g.free, hs.chain, hp⟩

theorem freePages_eq (hs : Books y s g) (ht : Books y t g') (hown : g'.own = g.own) : freePages t = freePages s := by
  ext p
  rw [mem_freePages hs, mem_freePages ht, hown]

theorem ncard_freePages (hs : Books y s g) : (freePages s).ncard = g.free.length := by
  have heq : freePages s = g.free.toFinset := by
    ext p
    rw [mem_freePages hs, hs.owner, Finset.mem_coe, mem_toFinset]
    rfl
  rw [heq, Set.ncard_coe_finset, toFinset_card_of_nodup hs.chain.nodup]

theorem freePages_ne (hs : Books y s g) (ht : Books y t g') (hp : g.own p = some .free)
    (hown : g'.own = update g.own p (some (.kept .held))) : freePages t ≠ freePages s := by
  intro heq
  have hmem := (mem_freePages hs).mpr hp
  rw [← heq, mem_freePages ht, hown, update_self] at hmem
  cases hmem

/-! ## fork and growproc -/

/-- What `fork` of `top` pages has done. -/
def ForkEnds (slot : Bool) (top : Nat) (g g' : Ghost) : Forked → Prop
  | .noProc => g'.own = g.own ∧ (slot = true → g.free = [])
  | .noCopy .noPage => g'.own = g.own ∧ ¬Loses 1 g.free.length top
  | .noCopy (.noTable mem) => g.own mem = some .free ∧ g'.own = update g.own mem (some (.kept .held)) ∧
      slot = true ∧ Loses 1 g.free.length top
  | .noCopy (.made _) => False
  | .child _ _ => 66 + top + (top + 1023) / 1024 ≤ g.free.length

theorem populated_take {rest : List Ppn} {v : Nat} (hs : Books y s g) (hfree : g.free = p :: rest)
    (h : Populated g d 0 v) :
    Populated (g.take p) d 0 v := by
  intro u hu hu'
  obtain ⟨q, i, j, hq, hij⟩ := h u hu hu'
  refine ⟨q, i, j, (Ghost.take_own_of_ne ?_).trans hq, hij⟩
  rintro rfl
  cases (own_head hs hfree).symm.trans hq

theorem fork_wp {slot : Bool} {stack : Page → Page} {pgdir : Ppn} {sz : Nat} (hs : Books y s g)
    (hE : Populated g pgdir 0 (below sz) ∨ E .pteMissing ∧ E .notPresent) :
    wp (fork y slot stack pgdir sz) (fun r t => ∃ g', Books y t g' ∧ ForkEnds slot (below sz) g g' r) E s := by
  rw [fork]
  cases slot with
  | false => exact ⟨g, hs, rfl, nofun⟩
  | true =>
    rw [if_pos rfl, wp_bind]
    refine kalloc_rule hs (fun hnil => ⟨g, hs, rfl, fun _ => hnil⟩) fun kstack rest hfree hpop => ?_
    have hlength := length_take hfree
    have hfreeown := own_head hs hfree
    have hfill := hpop.fill_held Ghost.take_own (stack ((popped s kstack).mem kstack))
    have hundo : update (update g.own kstack (some (.kept .held))) kstack (some .free) = g.own := by
      rw [update_idem, update_eq_self_iff, hfreeown]
    show wp (gets _ >>= _) _ E (popped s kstack)
    rw [wp_bind, wp_gets, wp_bind, wp_setPage, wp_bind]
    refine wp_imp (copyuvm_wp hfill (hE.imp_left (populated_take hs hfree))) fun r t ⟨g', ht, hr, hcount⟩ => ?_
    cases r with
    | made d =>
      rw [CopyCount] at hcount
      exact ⟨g', ht, show 66 + _ + _ ≤ _ by omega⟩
    | noPage =>
      obtain ⟨-, -, hr⟩ := hr
      have hk : g'.own kstack = some (.kept .held) := by rw [hr, Ghost.take_own]
      show wp (kfree y kstack >>= _) _ E t
      rw [wp_bind]
      refine kfree_rule ht hk fun hgive => ⟨_, hgive, ?_, ?_⟩
      · show update g'.own kstack _ = _
        rw [hr]
        exact hundo
      · rintro ⟨k, hk, hlen⟩
        exact hcount.2 ⟨k, hk, by omega⟩
    | noTable mem =>
      obtain ⟨hmem, -, -, hr⟩ := hr
      have hne : mem ≠ kstack := by
        rintro rfl
        cases Ghost.take_own.symm.trans hmem
      have hk : g'.own kstack = some (.kept .held) := by rw [hr, update_of_ne hne.symm, Ghost.take_own]
      show wp (kfree y kstack >>= _) _ E t
      rw [wp_bind]
      obtain ⟨k, hktop, hlen⟩ := hcount
      refine kfree_rule ht hk fun hgive =>
        ⟨_, hgive, (update_of_ne hne ..).symm.trans hmem, ?_, rfl, k, hktop, by omega⟩
      show update g'.own kstack _ = _
      rw [hr, update_comm hne]
      exact congrArg (update · mem _) hundo

theorem growproc_wp {sz : Nat} {n : Int} (hs : Books y s g) (hact : ∀ i, g.active d i) (hn : 0 < n) (hE : E .remap) :
    wp (growproc y d sz n) (fun r t => ∃ g', Books y t g' ∧
      (r = none → ∀ p, g.own p = some .free → g'.own p = some .free ∨ ∃ i, g'.own p = some (.table d i))) E s := by
  simp only [growproc, if_pos hn]
  rw [wp_bind]
  refine wp_imp (allocuvm_wp hs hact (.inr hE)) fun r t ⟨g', ht, _, _, h, _⟩ => ⟨g', ht, fun hr => ?_⟩
  by_cases hzero : r = 0
  · exact h hzero
  · simp [hzero] at hr

/-! ## Calls that fail -/

/-- Every free page is free afterwards, or a page table of `d`. -/
def KeepsButTables (d : Ppn) (s t : Kernel) : Prop := ∀ p ∈ freePages s, p ∈ freePages t ∨ ∃ i, entry t d i = some p

/-- What the calls do to the free pages if they fail. -/
structure GivesBack (y : Layout) (s : State) : Prop where
  setupkvm : ∀ t, setupkvm y s.kernel = .ok (none, t) → freePages t = freePages s.kernel
  copyuvm : ∀ pgdir sz r t, copyuvm y pgdir sz s.kernel = .ok (r, t) → (∀ d, r ≠ .made d) →
    (freePages t = freePages s.kernel ↔ ¬Loses 0 (freePages s.kernel).ncard (below sz))
  fork : ∀ slot stack pgdir sz r t, fork y slot stack pgdir sz s.kernel = .ok (r, t) → (∀ k d, r ≠ .child k d) →
    (freePages t = freePages s.kernel ↔ ¬(slot = true ∧ Loses 1 (freePages s.kernel).ncard (below sz)))
  allocuvm : ∀ d oldsz newsz t, s.dirs d = true → allocuvm y d oldsz newsz s.kernel = .ok (0, t) →
    KeepsButTables d s.kernel t
  growproc : ∀ d sz n t, s.dirs d = true → 0 < n → growproc y d sz n s.kernel = .ok (none, t) →
    KeepsButTables d s.kernel t

theorem keepsButTables_of_own (hs : Books y s g) (ht : Books y t g')
    (h : ∀ p, g.own p = some .free → g'.own p = some .free ∨ ∃ i, g'.own p = some (.table d i)) :
    KeepsButTables d s t := by
  intro p hp
  rcases h p ((mem_freePages hs).mp hp) with hfree | ⟨i, hi⟩
  · exact .inl ((mem_freePages ht).mpr hfree)
  · exact .inr ⟨i, ((ht.owner p _).mp hi).2⟩

/-- **When calls that fail give back what they took.** For `copyuvm` and `fork` this is told by the number of pages that
were free at the call. -/
theorem failed_calls_give_back {s : State} (hs : WellFormed y s) : GivesBack y s := by
  obtain ⟨g, h⟩ := hs
  refine ⟨fun t hcall => ?_, fun pgdir sz r t hcall hmade => ?_, fun slot stack pgdir sz r t hcall hchild => ?_,
    fun d oldsz newsz t hd hcall => ?_, fun d sz n t hd hn hcall => ?_⟩
  · obtain ⟨g', ht, -, -, -, hown, -⟩ := wp_ok (setupkvm_wp (E := fun _ => True) h.books) hcall
    exact freePages_eq h.books ht hown
  · obtain ⟨g', ht, hr, hcount⟩ := wp_ok (copyuvm_wp (E := fun _ => True) h.books (.inr ⟨trivial, trivial⟩)) hcall
    rw [ncard_freePages h.books]
    cases r with
    | made d => exact (hmade d rfl).elim
    | noPage => exact iff_of_true (freePages_eq h.books ht hr.2.2) hcount.2
    | noTable mem => exact iff_of_false (freePages_ne h.books ht hr.1 hr.2.2.2) (not_not.mpr hcount)
  · obtain ⟨g', ht, hr⟩ := wp_ok (fork_wp (E := fun _ => True) h.books (.inr ⟨trivial, trivial⟩)) hcall
    rw [ncard_freePages h.books]
    match r, hr with
    | .noProc, hr =>
      refine iff_of_true (freePages_eq h.books ht hr.1) ?_
      rintro ⟨hslot, k, -, hlen⟩
      rw [hr.2 hslot, length_nil] at hlen
      omega
    | .noCopy .noPage, hr => exact iff_of_true (freePages_eq h.books ht hr.1) fun hloses => hr.2 hloses.2
    | .noCopy (.noTable mem), hr => exact iff_of_false (freePages_ne h.books ht hr.1 hr.2.1) (not_not.mpr hr.2.2)
    | .child k d, _ => exact (hchild k d rfl).elim
  · obtain ⟨g', ht, -, -, hr, -⟩ :=
      wp_ok (allocuvm_wp (E := fun _ => True) h.books (h.all_active hd) (.inr trivial)) hcall
    exact keepsButTables_of_own h.books ht (hr rfl)
  · obtain ⟨g', ht, hr⟩ := wp_ok (growproc_wp (E := fun _ => True) h.books (h.all_active hd) hn trivial) hcall
    exact keepsButTables_of_own h.books ht (hr rfl)

/-! ## From boot -/

/-- A kernel of one page. -/
def smallLayout : Layout := ⟨257, 258, by decide, by decide, by decide⟩

/-- With two free pages for each page of user memory, `allocuvm` succeeds. -/
theorem allocLoop_enough {s₀ : Kernel} {g₀ : Ghost} {lo v n oldsz newsz : Nat} (h : Growing y d lo v s₀ g₀ s g)
    (hact : ∀ i, g₀.active d i) (hlo : lo ≤ v) (hv : v + n ≤ 2 ^ 19) (hfree : 2 * n ≤ g.free.length)
    (hclear : ∀ b : Vpn, v ≤ b.toNat → b.toNat < v + n → translate s₀ d b = none) :
    wp (allocLoop y d oldsz newsz n v) (fun r s' => r = newsz ∧ ∃ g', Growing y d lo (v + n) s₀ g₀ s' g' ∧
      g'.free.length + n + (tables s' d).card = g.free.length + (tables s d).card ∧
      ∀ i, i ∈ tables s' d ↔ i ∈ tables s d ∨ Covered v n i) E s := by
  induction n generalizing v s g with
  | zero =>
    refine ⟨rfl, g, h, rfl, fun i => ⟨.inl, fun hi => hi.resolve_right ?_⟩⟩
    rintro ⟨b, hb, hb', -⟩
    omega
  | succ n ih =>
    have hs := h.books
    have hacts : ∀ i, g.active d i := fun i => h.active ▸ hact i
    have hnat : (ofNat 20 v).toNat = v := toNat_ofNat_vpn (by omega)
    have hpdx : (pdx (ofNat 20 v)).val = v / 1024 := pdx_ofNat (by omega)
    rw [allocLoop, wp_bind]
    refine kalloc_rule hs (fun hnil => ?_) fun mem rest hcons hpop => ?_
    · rw [hnil, length_nil] at hfree
      omega
    · have hfill := hpop.fill_held Ghost.take_own zeroPage
      have hlength := length_take hcons
      have htables : tables ((popped s mem).fill mem zeroPage) d = tables s d := tables_popped hs hacts hcons
      have hnone : translate ((popped s mem).fill mem zeroPage) d (ofNat 20 v) = none := by
        rw [translate_eq_entryOf, pte_fill hs hacts (own_head hs hcons), h.outside _ (.inr (by omega)),
          ← translate_eq_entryOf]
        exact hclear _ (by omega) (by omega)
      show wp (setPage mem zeroPage >>= _) _ E (popped s mem)
      rw [wp_bind, wp_setPage, wp_bind]
      refine mapPage_rule hfill hacts (by omega) Ghost.take_own (.inl hnone) (fun _ hnil => ?_)
        fun s₁ g₁ hs₁ hext htab hpte => ?_
      · rw [hnil, length_nil] at hlength
        omega
      · have hgrown := h.step hact hlo (by omega) hcons hs₁ hext htab hpte
        have hcount := hext.count
        have hcard := Finset.card_insert_le (pdx (ofNat 20 v)) (tables s d)
        rw [htables] at hcount htab
        rw [← htab] at hcard
        refine wp_imp (ih hgrown (by omega) (by omega)
          (show 2 * n ≤ g₁.free.length by omega) fun b hb hb' => hclear b (by omega) (by omega)) ?_
        rintro r s' ⟨hr, g', hgrown, hcount', htab'⟩
        rw [Nat.add_right_comm v 1 n] at hgrown
        refine ⟨hr, g', hgrown, ?_, fun i => ?_⟩
        · have : g'.free.length + n + (tables s' d).card = g₁.free.length + (tables s₁ d).card := hcount'
          omega
        · rw [htab', htab, Finset.mem_insert]
          constructor
          · rintro ((rfl | hi) | ⟨b, hb, hb', hi⟩)
            · exact .inr ⟨v, by omega, by omega, hpdx.symm⟩
            · exact .inl hi
            · exact .inr ⟨b, by omega, by omega, hi⟩
          · rintro (hi | ⟨b, hb, hb', hi⟩)
            · exact .inl (.inr hi)
            · by_cases hbv : b = v
              · exact .inl (.inl (Fin.ext (by omega)))
              · exact .inr ⟨b, by omega, by omega, hi⟩

theorem allocuvm_enough {oldsz newsz : Nat} (hs : Books y s g) (hact : ∀ i, g.active d i) (hold : oldsz ≤ newsz)
    (hnew : newsz < KERNBASE) (hfree : 2 * (below newsz - below oldsz) ≤ g.free.length)
    (hclear : ∀ b : Vpn, below oldsz ≤ b.toNat → b.toNat < below newsz → translate s d b = none) :
    wp (allocuvm y d oldsz newsz) (fun r s' => r = newsz ∧ ∃ g', Growing y d (below oldsz) (below newsz) s g s' g' ∧
      g'.free.length + (below newsz - below oldsz) + (tables s' d).card = g.free.length + (tables s d).card ∧
      ∀ i, i ∈ tables s' d ↔ i ∈ tables s d ∨ Covered (below oldsz) (below newsz - below oldsz) i) E s := by
  have hmono := below_mono hold
  have htop := below_le hnew.le
  have hend : below oldsz + (below newsz - below oldsz) = below newsz := by omega
  rw [allocuvm, if_neg (by omega), if_neg (by omega), roundup_eq_below (by omega)]
  refine wp_imp (allocLoop_enough (.refl hs le_rfl) hact le_rfl (by omega) hfree fun b hb hb' => hclear b hb (by omega))
    ?_
  rintro r s' ⟨hr, g', hgrown, hcount, htab⟩
  rw [hend] at hgrown
  exact ⟨hr, g', hgrown, hcount, htab⟩

theorem after_of_wp {α : Type} {s : State} {m : M α} {Q : α → Kernel → Prop} (hm : wp m Q (fun _ => False) s.kernel) :
    ∃ a t, Q a t ∧ ∀ f : α → State → State, s.after m f = some (f a { s with kernel := t }) := by
  obtain ⟨a, t, hcall, hQ⟩ := wp_total hm
  refine ⟨a, t, hQ, fun f => ?_⟩
  rw [State.after, hcall]

theorem boot (mem : Ppn → Page) {lo hi : Nat} (hlo : 258 ≤ lo) (hhi : hi ≤ 57344) :
    ∃ s g, step smallLayout (start smallLayout mem) (.freerange lo hi) = some s ∧ Accounts smallLayout s g ∧
      g.free.length = hi - lo := by
  obtain ⟨g, h⟩ := start_wellFormed (y := smallLayout) mem
  have hnil : g.free = [] := h.books.chain.unique rfl
  have hheld : ∀ p ∈ range' lo (hi - lo), (start smallLayout mem).held (ofNat 20 p) = true := by
    intro p hp
    rw [mem_range'_1] at hp
    have hnat : (ofNat 20 p).toNat = p := toNat_ofNat_vpn (by omega)
    refine decide_eq_true ⟨?_, ?_⟩
    · rw [hnat]
      exact hlo.trans hp.1
    · rw [hnat]
      show p < 57344
      omega
  have hkept := fun p hp => (h.held (ofNat 20 p)).mp (hheld p hp)
  obtain ⟨_, t, ⟨g', hb, ha, hlen, hk⟩, hstep⟩ := after_of_wp (freerange_wp h.books (by omega) hkept)
  refine ⟨_, g', ?_, h.ranged hb ha hheld hk, by rw [hlen, hnil, length_nil, Nat.zero_add]⟩
  rw [step, if_pos ⟨by omega, hheld⟩]
  exact hstep _

/-- A directory without user memory. -/
theorem fresh_dir (mem : Ppn → Page) {n : Nat} (hn : 323 + n ≤ 57344) : ∃ d s₁ s g,
    step smallLayout (start smallLayout mem) (.freerange 258 (323 + n)) = some s₁ ∧
      step smallLayout s₁ .setupkvm = some s ∧
      Accounts smallLayout s g ∧ s.dirs d = true ∧ g.free.length = n ∧ tables s.kernel d = kernelTables := by
  obtain ⟨s₁, g₁, hstep₁, h₁, hlen₁⟩ := boot mem (le_refl 258) hn
  obtain ⟨r, t₂, ⟨g₂, hb₂, hr⟩, hstep₂⟩ := after_of_wp (setupkvm_wp h₁.books)
  cases r with
  | none =>
    have := hr.1
    omega
  | some d =>
    obtain ⟨hd, hk, ha, -, htab, hlen₂⟩ := hr
    refine ⟨d, s₁, _, g₂, hstep₁, ?_, h₁.founded hb₂ hd hk ha, update_self .., by omega, htab⟩
    rw [step]
    exact hstep₂ _

/-- A directory with user memory of size `sz`. -/
theorem grown_dir (mem : Ppn → Page) {n sz : Nat} (hn : 323 + n ≤ 57344) (hsz : sz < KERNBASE)
    (hfree : 2 * below sz ≤ n) : ∃ d s g,
    run (step smallLayout) (start smallLayout mem) [.freerange 258 (323 + n), .setupkvm, .allocuvm d 0 sz] = some s ∧
      Accounts smallLayout s g ∧ s.dirs d = true ∧ Populated g d 0 (below sz) ∧
      (∀ a : Vpn, a.toNat < 2 ^ 19 → ((translate s.kernel d a).isSome ↔ a.toNat < below sz)) ∧
      g.free.length + below sz + (tables s.kernel d).card = n + 64 ∧
      ∀ i, i ∈ tables s.kernel d ↔ i ∈ kernelTables ∨ Covered 0 (below sz) i := by
  obtain ⟨d, s₁, s₂, g₂, hstep₁, hstep₂, h₂, hdirs, hlen, htab⟩ := fresh_dir mem hn
  have hact := h₂.all_active hdirs
  have hzero : below 0 = 0 := rfl
  have hnone : ∀ a : Vpn, a.toNat < 2 ^ 19 → translate s₂.kernel d a = none := by
    intro a ha
    rw [translate, entry_eq_none htab (.inl (show a.toNat / 1024 < 512 by omega))]
    rfl
  have htop := below_le hsz.le
  obtain ⟨_, t, ⟨-, g, hgrown, hcount, htables⟩, hstep₃⟩ := after_of_wp
    (allocuvm_enough h₂.books hact (Nat.zero_le sz) hsz (by omega) fun b _ hb => hnone b (by omega))
  rw [htab, hzero, Nat.sub_zero] at htables
  rw [htab, card_kernelTables, hzero, Nat.sub_zero, hlen] at hcount
  refine ⟨d, _, g, ?_, h₂.keep hgrown.books hgrown.kept hgrown.active, hdirs, hgrown.populated hact htop,
    fun a ha => ?_, hcount, htables⟩
  · refine run_cons.mpr ⟨s₁, hstep₁, run_cons.mpr ⟨_, hstep₂, run_cons.mpr ⟨_, ?_, rfl⟩⟩⟩
    rw [step, if_pos ⟨hdirs, by decide, hsz.le⟩]
    exact hstep₃ _
  · by_cases hin : a.toNat < below sz
    · obtain ⟨p, hp, -, -⟩ := hgrown.inside a (Nat.zero_le _) hin
      refine iff_of_true ?_ hin
      rw [translate_eq_entryOf, hp, entryOf_mkPte]
      rfl
    · refine iff_of_false ?_ hin
      rw [translate_eq_entryOf, hgrown.outside a (.inr (by omega)), ← translate_eq_entryOf, hnone a ha]
      exact Bool.false_ne_true

theorem nearly_full (mem : Ppn → Page) {n : Nat} (hn : n ≤ 1000) : ∃ d s g,
    run (step smallLayout) (start smallLayout mem) [.freerange 258 (325 + n), .setupkvm, .allocuvm d 0 PGSIZE] = some
      s ∧
      Accounts smallLayout s g ∧ s.dirs d = true ∧ g.free.length = n ∧ Populated g d 0 (below PGSIZE) := by
  obtain ⟨d, s, g, hrun, h, hdirs, hpop, -, hcount, htab⟩ :=
    grown_dir mem (n := n + 2) (by omega) (show PGSIZE < KERNBASE by decide)
    (show 2 * 1 ≤ n + 2 by omega)
  have htables : tables s.kernel d = insert 0 kernelTables := by
    ext i
    rw [htab, Finset.mem_insert, or_comm]
    refine or_congr_left ⟨?_, ?_⟩
    · rintro ⟨b, -, hb, hi⟩
      have hone : below PGSIZE = 1 := rfl
      exact Fin.ext (show i.val = 0 by omega)
    · rintro rfl
      exact ⟨0, le_rfl, Nat.one_pos, rfl⟩
  rw [htables, Finset.card_insert_of_notMem (by decide +kernel), card_kernelTables] at hcount
  rw [show 323 + (n + 2) = 325 + n by omega] at hrun
  exact ⟨d, s, g, hrun, h, hdirs, by have hone : below PGSIZE = 1 := rfl; omega, hpop⟩

/-- With 65 free pages there is one for each page table of the kernel and none for the copy. All are given back. -/
theorem failed_calls_give_back_full : ∃ d s t,
    run (step smallLayout) (start smallLayout fun _ => zeroPage) [.freerange 258 390, .setupkvm,
      .allocuvm d 0 PGSIZE] = some s ∧
      (freePages s.kernel).ncard = 65 ∧ copyuvm smallLayout d PGSIZE s.kernel = .ok (.noPage, t) ∧
      freePages t = freePages s.kernel := by
  obtain ⟨d, s, g, hrun, h, -, hlen, hpop⟩ := nearly_full (fun _ => zeroPage) (n := 65) (by decide)
  have hone : below PGSIZE = 1 := rfl
  obtain ⟨r, t, hcall, g', ht, hr, hcount⟩ := wp_total (copyuvm_wp h.books (.inl hpop))
  have hfree := ncard_freePages h.books
  rw [hlen] at hcount hfree
  have hkeeps : ¬Loses 0 65 (below PGSIZE) := by
    rintro ⟨k, -, hk⟩
    omega
  cases r with
  | made d' =>
    rw [CopyCount] at hcount
    omega
  | noTable mem => exact absurd hcount hkeeps
  | noPage =>
    refine ⟨d, s, t, hrun, hfree, hcall, ((failed_calls_give_back ⟨g, h⟩).copyuvm d _ _ t hcall nofun).mpr ?_⟩
    rw [hfree]
    exact hkeeps

/-- With 66 the page of user memory that was to be copied is lost. -/
theorem copyuvm_loses_page : ∃ d s mem t,
    run (step smallLayout) (start smallLayout fun _ => zeroPage) [.freerange 258 391, .setupkvm,
      .allocuvm d 0 PGSIZE] = some s ∧
      copyuvm smallLayout d PGSIZE s.kernel = .ok (.noTable mem, t) ∧ mem ∈ freePages s.kernel ∧ mem ∉ freePages t := by
  obtain ⟨d, s, g, hrun, h, -, hlen, hpop⟩ := nearly_full (fun _ => zeroPage) (n := 66) (by decide)
  have hone : below PGSIZE = 1 := rfl
  obtain ⟨r, t, hcall, g', ht, hr, hcount⟩ := wp_total (copyuvm_wp h.books (.inl hpop))
  rw [hlen] at hcount
  cases r with
  | made d' =>
    rw [CopyCount] at hcount
    omega
  | noPage => exact absurd ⟨0, by omega, rfl⟩ hcount.2
  | noTable mem =>
    refine ⟨d, s, mem, t, hrun, hcall, (mem_freePages h.books).mpr hr.1, fun hmem => ?_⟩
    rw [mem_freePages ht, hr.2.2.2, update_self] at hmem
    cases hmem

end Xv6.Vm
