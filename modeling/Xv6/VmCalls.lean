import Mathlib
import Xv6.VmOwners

/- What the functions of kalloc.c and vm.c do to the books.

   Each function has one rule: from a state whose books are right, what holds of its result and of the new
   state. A rule gives the books afterwards by what they say of every page, `Ghost.own`; the free list, the
   page tables and the user memory of all directories follow from that.

   1. `kalloc`, `kfree`, `walkpgdir`.
   2. `mapLoop` for kernel memory, `mapPage` for user memory.
   3. `deallocuvm`, `freevm`.
   4. `setupkvm`, which gives back what it has taken if it fails.

   The tables of a directory are counted along with the free pages: `walkpgdir` makes one from the other,
   so `setupkvm` needs 65 pages, no more and no fewer. -/
namespace Xv6.Vm
open Function List Bits Command LinkedQueue Transition
open BitVec (ofNat)

variable {Q : Unit → Kernel → Prop} {hi lo : Nat}
variable {y : Layout} {s s' : Kernel} {g g' : Ghost} {p t d : Ppn} {E : Stop → Prop}

/-! ## Virtual pages -/

/-- The number of a virtual page. -/
def vpn (i j : Index) : Nat := i.val * 1024 + j.val

theorem vpn_pdx_ptx (a : Vpn) : vpn (pdx a) (ptx a) = a.toNat := by
  show a.toNat / 1024 * 1024 + a.toNat % 1024 = a.toNat
  omega

theorem eq_of_pdx_ptx {a b : Vpn} (hd : pdx a = pdx b) (ht : ptx a = ptx b) : a = b := by
  apply BitVec.eq_of_toNat_eq
  rw [← vpn_pdx_ptx a, ← vpn_pdx_ptx b, hd, ht]

theorem toNat_ofNat_vpn {v : Nat} (hv : v < 2 ^ 20) : (ofNat 20 v).toNat = v := by
  rw [BitVec.toNat_ofNat, Nat.mod_eq_of_lt hv]

theorem pdx_ofNat {v : Nat} (hv : v < 2 ^ 20) : (pdx (ofNat 20 v)).val = v / 1024 := by
  show (ofNat 20 v).toNat / 1024 = _
  rw [toNat_ofNat_vpn hv]

theorem vpn_ofNat {v : Nat} (hv : v < 2 ^ 20) : vpn (pdx (ofNat 20 v)) (ptx (ofNat 20 v)) = v := by
  rw [vpn_pdx_ptx, toNat_ofNat_vpn hv]

theorem below_le {sz : Nat} (h : sz ≤ KERNBASE) : below sz ≤ 2 ^ 19 := by
  simp only [below, PGSIZE, KERNBASE] at *
  omega

theorem below_mono (h : lo ≤ hi) : below lo ≤ below hi := by
  simp only [below, PGSIZE]
  omega

theorem roundup_eq_below {sz : Nat} (h : sz ≤ KERNBASE) : roundup sz = below sz := by
  simp only [roundup, below, PGSIZE, KERNBASE] at *
  omega

/-- The page that a directory maps a virtual page to. -/
def translate (s : Kernel) (d : Ppn) (a : Vpn) : Option Ppn := (entry s d (pdx a)).bind fun t => entry s t (ptx a)

/-- The entry of a virtual page, 0 if it has no page table. -/
def pte (s : Kernel) (d : Ppn) (a : Vpn) : Word :=
  match entry s d (pdx a) with
  | some t => s.mem t (ptx a)
  | none => 0

theorem pte_of_entry {a : Vpn} (ht : entry s d (pdx a) = some t) : pte s d a = s.mem t (ptx a) := by
  rw [pte, ht]

theorem translate_eq_entryOf (a : Vpn) : translate s d a = entryOf (pte s d a) := by
  unfold translate pte
  cases entry s d (pdx a) with
  | none => exact entryOf_zero.symm
  | some t => rfl

/-- The entries of a directory that have a page table. -/
def tables (s : Kernel) (d : Ppn) : Finset Index := Finset.univ.filter fun i => (entry s d i).isSome

theorem mem_tables {i : Index} : i ∈ tables s d ↔ ∃ t, entry s d i = some t := by
  simp [tables, Option.isSome_iff_exists]

theorem wp_store {i : Index} {w : Word} : wp (store p i w) Q E s ↔ Q () (s.poke p i w) := Iff.rfl

theorem wp_setPage {x : Page} : wp (setPage p x) Q E s ↔ Q () (s.fill p x) := Iff.rfl

section

variable {a : Vpn} (hs : Books y s g)

include hs

theorem own_of_translate (hact : g.active d (pdx a)) (ha : a.toNat < 2 ^ 19) (h : translate s d a = some p) :
    g.own p = some (.user d (pdx a) (ptx a)) := by
  obtain ⟨t, ht, hp⟩ := Option.bind_eq_some_iff.mp h
  refine hs.own_user hact ?_ ht hp
  show a.toNat / 1024 < 512
  omega

theorem translate_eq_none (hact : g.active d (pdx a)) (ha : a.toNat < 2 ^ 19)
    (h : ∀ p, g.own p ≠ some (.user d (pdx a) (ptx a))) : translate s d a = none := by
  by_contra hne
  obtain ⟨p, hp⟩ := Option.ne_none_iff_exists'.mp hne
  exact h p (own_of_translate hs hact ha hp)

theorem translate_of_own {i j : Index} (h : g.own p = some (.user d i j)) (ha : vpn i j = a.toNat) :
    translate s d a = some p := by
  obtain ⟨-, -, t, ht, hp⟩ := (hs.owner p _).mp h
  rw [vpn] at ha
  have hi : i = pdx a := Fin.ext (show i.val = a.toNat / 1024 by omega)
  have hj : j = ptx a := Fin.ext (show j.val = a.toNat % 1024 by omega)
  rw [translate, ← hi, ← hj, ht]
  exact hp

end

/-! ## The allocator -/

def popped (s : Kernel) (p : Ppn) : Kernel := { s with freelist := pointee (s.mem p 0) }

theorem kalloc_rule {Q : Option Ppn → Kernel → Prop} (hs : Books y s g) (hnone : g.free = [] → Q none s)
    (hsome : ∀ p rest, g.free = p :: rest → Books y (popped s p) (g.take p) → Q (some p) (popped s p)) :
    wp kalloc Q E s := by
  have hhead : s.freelist = g.free.head? := hs.chain.head
  rw [kalloc, wp_bind, wp_gets, hhead]
  cases hfree : g.free with
  | nil => exact hnone hfree
  | cons p rest => exact hsome p rest hfree (hs.take hfree)

theorem wp_kfree (hp : y.IsRam p) : wp (kfree y p) Q E s ↔ Q () (Books.freed s p) := by
  have hstate : (⟨update (update s.mem p junk) p
      (update (update s.mem p junk p) 0 (pointer s.freelist)), some p⟩ : Kernel) = Books.freed s p := by
    rw [update_self, update_idem]
    rfl
  rw [kfree, if_pos hp, ← hstate]
  rfl

theorem kfree_rule (hs : Books y s g) (hown : g.own p = some (.kept .held))
    (hQ : Books y (Books.freed s p) (g.give p) → Q () (Books.freed s p)) : wp (kfree y p) Q E s :=
  (wp_kfree (hs.ram p _ hown)).mpr (hQ (hs.give hown))

/-! ## What is stored to -/

/-- Page `p` is not free, and `P` does not allow stores to it. -/
def Safe (P : Ppn → Owner → Prop) (g : Ghost) (p : Ppn) : Prop := ∀ o, g.own p = some o → o ≠ .free ∧ ¬P p o

/-- Only free pages and those that `P` allows have been stored to. -/
def Frame (P : Ppn → Owner → Prop) (s : Kernel) (g : Ghost) (s' : Kernel) : Prop := ∀ p, Safe P g p → s'.mem p = s.mem p

section frame

variable {P P' : Ppn → Owner → Prop} {s₁ : Kernel} {g₁ : Ghost}

theorem Frame.refl : Frame P s g s := fun _ _ => rfl

theorem Frame.trans (h : Frame P s g s₁) (hsafe : ∀ p, Safe P g p → Safe P' g₁ p) (h' : Frame P' s₁ g₁ s') :
    Frame P s g s' :=
  fun p hp => (h' p (hsafe p hp)).trans (h p hp)

theorem Safe.mono (hp : Safe P' g p) (hP : ∀ o, P p o → P' p o) : Safe P g p :=
  fun o ho => ⟨(hp o ho).1, fun h => (hp o ho).2 (hP o h)⟩

theorem Frame.mono (h : Frame P s g s') (hP : ∀ p o, P p o → P' p o) : Frame P' s g s' :=
  fun p hp => h p (hp.mono (hP p))

theorem Safe.congr (hp : Safe P g p) (h : g₁.own p = g.own p ∨ g.own p = some .free) : Safe P g₁ p := by
  rcases h with heq | hfree
  · intro o ho
    exact hp o (heq ▸ ho)
  · exact ((hp _ hfree).1 rfl).elim

theorem Safe.ne {q : Ppn} {o : Owner} (hp : Safe P g p) (hq : g.own q = some o) (ho : o = .free ∨ P q o) : p ≠ q := by
  rintro rfl
  rcases ho with rfl | ho
  · exact (hp _ hq).1 rfl
  · exact (hp _ hq).2 ho

theorem Frame.fill {q : Ppn} {o : Owner} {x : Page} (h : Frame P s g s₁) (hq : g.own q = some o)
    (ho : o = .free ∨ P q o) :
    Frame P s g (s₁.fill q x) :=
  fun _ hp => (update_of_ne (hp.ne hq ho) ..).trans (h _ hp)

theorem Frame.popped {q : Ppn} {x : Page} (hq : g.own q = some .free) : Frame P s g ((popped s q).fill q x) := by
  have hsame : Frame P s g (Vm.popped s q) := .refl
  exact hsame.fill hq (.inl rfl)

theorem Frame.freed {q : Ppn} {o : Owner} (h : Frame P s g s₁) (hq : g.own q = some o) (ho : o = .free ∨ P q o) :
    Frame P s g (Books.freed s₁ q) :=
  fun _ hp => (update_of_ne (hp.ne hq ho) ..).trans (h _ hp)

theorem Frame.poke {q : Ppn} {o : Owner} {i : Index} {w : Word} (h : Frame P s g s₁) (hq : g.own q = some o)
    (ho : o = .free ∨ P q o) : Frame P s g (s₁.poke q i w) :=
  fun _ hp => (update_of_ne (hp.ne hq ho) ..).trans (h _ hp)

end frame

/-! ## Page tables -/

/-- Directory `d` itself, or one of its page tables. -/
def Owner.Paging (d p : Ppn) : Owner → Prop
  | .kept .dir => p = d
  | .table d' _ => d' = d
  | _ => False

def Owner.Of (d p : Ppn) : Owner → Prop
  | .kept .dir => p = d
  | .table d' _ => d' = d
  | .user d' _ _ => d' = d
  | _ => False

theorem Owner.Paging.of : ∀ {o : Owner}, o.Paging d p → o.Of d p
  | .kept .dir, h => h
  | .table _ _, h => h

/-- Directory `d` has got page tables from the free list. -/
structure Extends (d : Ppn) (s : Kernel) (g : Ghost) (s' : Kernel) (g' : Ghost) : Prop where
  kept : g'.kept = g.kept
  active : g'.active = g.active
  own : ∀ p, g'.own p = g.own p ∨ g.own p = some .free ∧ ∃ i, g'.own p = some (.table d i)
  count : g'.free.length + (tables s' d).card = g.free.length + (tables s d).card
  frame : Frame (fun p o => o.Paging d p) s g s'

theorem Extends.refl : Extends d s g s g := ⟨rfl, rfl, fun _ => .inl rfl, rfl, .refl⟩

theorem Extends.safe {P : Ppn → Owner → Prop} (h : Extends d s g s' g') (hp : Safe P g p) : Safe P g' p :=
  hp.congr ((h.own p).imp_right And.left)

theorem Extends.frameOf {s₁ : Kernel} {g₁ : Ghost} (h : Extends d s g s₁ g₁)
    (h' : Frame (fun p o => o.Of d p) s₁ g₁ s') :
    Frame (fun p o => o.Of d p) s g s' :=
  (h.frame.mono fun _ _ => Owner.Paging.of).trans (fun _ hp => h.safe hp) h'

theorem Extends.trans {s₁ : Kernel} {g₁ : Ghost} (h : Extends d s g s₁ g₁) (h' : Extends d s₁ g₁ s' g') :
    Extends d s g s' g' where
  kept := h'.kept.trans h.kept
  active := h'.active.trans h.active
  own p := by
    rcases h'.own p with heq | ⟨hfree, i, hi⟩
    · rw [heq]
      exact h.own p
    · rcases h.own p with heq | ⟨-, i', hi'⟩
      · exact .inr ⟨heq ▸ hfree, i, hi⟩
      · cases hfree.symm.trans hi'
  count := h'.count.trans h.count
  frame := h.frame.trans (fun _ hp => h.safe hp) h'.frame

theorem kept_none {o : Owner} (hs : Books y s g) (hp : g.own p = some o) (ho : ∀ u, o ≠ .kept u) : g.kept p = none := by
  cases hk : g.kept p with
  | none => rfl
  | some u => exact (ho u (hs.unique hp (.kept u) hk).symm).elim

theorem walkpgdir_false {Q : Option (Ppn × Index) → Kernel → Prop} {a : Vpn} :
    wp (walkpgdir d a false) Q E s ↔ Q ((entry s d (pdx a)).map fun t => (t, ptx a)) s := by
  rw [walkpgdir, wp_bind, wp_gets, entry, entryOf]
  by_cases h : present (s.mem d (pdx a)) = true
  · simp only [h, if_true, Option.map_some]
    rfl
  · simp only [h]
    rfl

/-- The state after `walkpgdir` has made `p` the page table of entry `i`. -/
def attached (s : Kernel) (p d : Ppn) (i : Index) : Kernel := ((popped s p).fill p zeroPage).poke d i (mkPte p PTE_WU)

section attached

variable {i : Index}

theorem entry_attached_self : entry (attached s p d i) d i = some p := by
  rw [attached, entry_poke_self, entryOf_mkPte]

theorem entry_attached_of_ne {q : Ppn} {j : Index} (h : ¬(q = d ∧ j = i)) (hq : q ≠ p) :
    entry (attached s p d i) q j = entry s q j := by
  rw [attached, entry_poke_of_ne h, entry_fill_of_ne hq]
  rfl

theorem mem_attached_of_ne {q : Ppn} (hp : q ≠ p) (hd : q ≠ d) : (attached s p d i).mem q = s.mem q := by
  simp [attached, Kernel.poke, Kernel.fill, popped, hp, hd]

variable {rest : List Ppn} (hs : Books y s g) (hact : ∀ i, g.active d i) (hnone : entry s d i = none)
  (hfree : g.free = p :: rest)

include hs hfree in
theorem own_head : g.own p = some .free := hs.own_free (by simp [hfree])

theorem update_take_kept (hs : Books y s g) (hfree : g.free = p :: rest) :
    update (g.take p).kept p none = g.kept := by
  show update (update g.kept p _) p none = g.kept
  rw [update_idem, update_eq_self_iff, kept_none hs (own_head hs hfree) nofun]

include hs hact hfree

theorem head_ne_dir : p ≠ d := by
  rintro rfl
  cases (own_head hs hfree).symm.trans (hs.own_dir (hact 0))

include hnone

theorem attached_books : Books y (attached s p d i) ((g.take p).attach p d i) := by
  have hzero := (hs.take hfree).fill_held Ghost.take_own zeroPage
  refine hzero.attach (hact i) ?_ Ghost.take_own (fun j => ?_) (entryOf_mkPte p PTE_WU)
  · rw [entry_fill_of_ne (head_ne_dir hs hact hfree).symm]
    exact hnone
  · rw [entry_fill_self]
    exact entryOf_zero

theorem attached_tables : tables (attached s p d i) d = insert i (tables s d) := by
  ext j
  rw [Finset.mem_insert, mem_tables, mem_tables]
  by_cases hj : j = i
  · subst hj
    simp [entry_attached_self]
  · rw [entry_attached_of_ne (fun h => hj h.2) (head_ne_dir hs hact hfree).symm]
    simp [hj]

theorem attached_extends : Extends d s g (attached s p d i) ((g.take p).attach p d i) where
  kept := update_take_kept hs hfree
  active := rfl
  own q := by
    show update (update g.own p _) p (some (.table d i)) q = _ ∨ _ ∧ ∃ j, _
    by_cases hq : q = p
    · subst hq
      exact .inr ⟨own_head hs hfree, i, update_self ..⟩
    · rw [update_idem, update_of_ne hq]
      exact .inl rfl
  count := by
    have hnew : i ∉ tables s d := by simp [mem_tables, hnone]
    rw [attached_tables hs hact hnone hfree, Finset.card_insert_of_notMem hnew]
    show g.free.tail.length + _ = _
    rw [hfree, tail_cons, length_cons]
    omega
  frame := Frame.poke (Frame.fill .refl (own_head hs hfree) (.inl rfl)) (hs.own_dir (hact i)) (.inr rfl)

theorem attached_pte (b : Vpn) : pte (attached s p d i) d b = pte s d b := by
  have hpd := head_ne_dir hs hact hfree
  unfold pte
  by_cases hb : pdx b = i
  · rw [hb, entry_attached_self, hnone]
    simp [attached, Kernel.poke, Kernel.fill, hpd, zeroPage]
  · rw [entry_attached_of_ne (fun h => hb h.2) hpd.symm]
    cases ht : entry s d (pdx b) with
    | none => rfl
    | some t =>
      have htown := hs.own_table (hact (pdx b)) ht
      refine congrFun (mem_attached_of_ne ?_ ?_) (ptx b)
      · rintro rfl
        cases (own_head hs hfree).symm.trans htown
      · rintro rfl
        cases (hs.own_dir (hact i)).symm.trans htown

end attached

theorem walkpgdir_rule {Q : Option (Ppn × Index) → Kernel → Prop} {a : Vpn} (hs : Books y s g)
    (hact : ∀ i, g.active d i) (hnone : entry s d (pdx a) = none → g.free = [] → Q none s)
    (hsome : ∀ t s' g', Books y s' g' → Extends d s g s' g' → (∀ b, pte s' d b = pte s d b) →
      tables s' d = insert (pdx a) (tables s d) → entry s' d (pdx a) = some t → Q (some (t, ptx a)) s') :
    wp (walkpgdir d a true) Q E s := by
  rw [walkpgdir, wp_bind, wp_gets]
  by_cases hpde : present (s.mem d (pdx a)) = true
  · have hentry : entry s d (pdx a) = some (addr (s.mem d (pdx a))) := if_pos hpde
    have htables : tables s d = insert (pdx a) (tables s d) :=
      (Finset.insert_eq_of_mem (mem_tables.mpr ⟨_, hentry⟩)).symm
    rw [if_pos hpde, wp_pure]
    exact hsome _ s g hs .refl (fun _ => rfl) htables hentry
  · have hentry : entry s d (pdx a) = none := if_neg hpde
    rw [if_neg hpde, if_pos rfl, wp_bind]
    refine kalloc_rule hs (hnone hentry) fun p rest hfree _ => ?_
    exact hsome p (attached s p d (pdx a)) _ (attached_books hs hact hentry hfree)
      (attached_extends hs hact hentry hfree) (attached_pte hs hact hentry hfree)
      (attached_tables hs hact hentry hfree) entry_attached_self

/-! ## Entries of page tables -/

section entries

variable {a : Vpn} {w : Word} (hs : Books y s g) (hact : ∀ i, g.active d i) (ht : entry s d (pdx a) = some t)

include hs hact ht

theorem tables_poke (j : Index) : tables (s.poke t j w) d = tables s d := by
  ext i
  rw [mem_tables, mem_tables, hs.entry_poke_table (hact (pdx a)) ht (hact i)]

theorem pte_poke (b : Vpn) : pte (s.poke t (ptx a) w) d b = if b = a then w else pte s d b := by
  unfold pte
  rw [hs.entry_poke_table (hact (pdx a)) ht (hact (pdx b))]
  by_cases h : b = a
  · rw [if_pos h, h, ht]
    simp [Kernel.poke]
  · rw [if_neg h]
    cases ht' : entry s d (pdx b) with
    | none => rfl
    | some t' =>
      by_cases heq : t' = t
      · subst heq
        have hptx : ptx b ≠ ptx a :=
          fun hptx => h (eq_of_pdx_ptx (hs.table_inj (hact (pdx a)) ht (hact (pdx b)) ht').2 hptx)
        simp [Kernel.poke, hptx]
      · simp [Kernel.poke, heq]

theorem Extends.poke {s₀ : Kernel} {g₀ : Ghost} (hext : Extends d s₀ g₀ s g) (j : Index) :
    Extends d s₀ g₀ (s.poke t j w) g where
  kept := hext.kept
  active := hext.active
  own := hext.own
  count := (congrArg (_ + Finset.card ·) (tables_poke hs hact ht j)).trans hext.count
  frame := hext.frame.trans (fun _ hp => hext.safe hp) (Frame.poke .refl (hs.own_table (hact (pdx a)) ht) (.inr rfl))

end entries

theorem pte_fill_of_ne {x : Page} (hs : Books y s g) (hact : ∀ i, g.active d i) (hdir : g.own p ≠ some (.kept .dir))
    (htable : ∀ i, g.own p ≠ some (.table d i)) (a : Vpn) : pte (s.fill p x) d a = pte s d a := by
  have hd : d ≠ p := by
    rintro rfl
    exact hdir (hs.own_dir (hact 0))
  unfold pte
  rw [entry_fill_of_ne hd]
  cases ht : entry s d (pdx a) with
  | none => rfl
  | some t =>
    have htp : t ≠ p := by
      rintro rfl
      exact htable _ (hs.own_table (hact _) ht)
    exact congrFun (update_of_ne htp ..) (ptx a)

/-- Entry `i` of a directory has the table for one of the `n` pages from `v` on. -/
def Covered (v n : Nat) (i : Index) : Prop := ∃ b, v ≤ b ∧ b < v + n ∧ b / 1024 = i.val

/-- What the loop of `mappages` does to the page tables, if it ends with `r`. -/
structure Mapped (y : Layout) (d : Ppn) (v n : Nat) (pa : Ppn) (perm : BitVec 12) (s : Kernel) (g : Ghost) (r : Bool)
    (s' : Kernel) (g' : Ghost) : Prop where
  books : Books y s' g'
  ext : Extends d s g s' g'
  outside : ∀ b : Vpn, b.toNat < v ∨ v + n ≤ b.toNat → pte s' d b = pte s d b
  inside : r = true → ∀ b : Vpn, v ≤ b.toNat → b.toNat < v + n → pte s' d b = mkPte (pa + (b - ofNat 20 v)) perm
  mono : tables s d ⊆ tables s' d
  within : ∀ i ∈ tables s' d, i ∈ tables s d ∨ Covered v n i
  done : r = true → ∀ i, Covered v n i → i ∈ tables s' d
  failed : r = false → g'.free = [] ∧ ∃ i, Covered v n i ∧ i ∉ tables s' d

/-- The loop of `mappages` over kernel memory. It panics only if one of the pages is mapped already. -/
theorem mapLoop_wp {perm : BitVec 12} {n v : Nat} {pa : Ppn} (hs : Books y s g) (hact : ∀ i, g.active d i)
    (hlo : 2 ^ 19 ≤ v) (hhi : v + n ≤ 2 ^ 20)
    (hE : (∀ b : Vpn, v ≤ b.toNat → b.toNat < v + n → translate s d b = none) ∨ E .remap) :
    wp (mapLoop d perm n (ofNat 20 v) pa) (fun r s' => ∃ g', Mapped y d v n pa perm s g r s' g') E s := by
  induction n generalizing v pa s g with
  | zero =>
    refine ⟨g, hs, .refl, fun _ _ => rfl, fun _ b hb hb' => by omega, subset_rfl, fun i hi => .inl hi, ?_, nofun⟩
    rintro - i ⟨b, hb, hb', -⟩
    omega
  | succ n ih =>
    have hv : (ofNat 20 v).toNat = v := toNat_ofNat_vpn (by omega)
    have hpdx : (pdx (ofNat 20 v)).val = v / 1024 := pdx_ofNat (by omega)
    have hfirst : Covered v (n + 1) (pdx (ofNat 20 v)) := ⟨v, by omega, by omega, hpdx.symm⟩
    have hrest : ∀ {i}, Covered (v + 1) n i → Covered v (n + 1) i := by
      rintro i ⟨b, hb, hb', hi⟩
      exact ⟨b, by omega, by omega, hi⟩
    rw [mapLoop, wp_bind]
    refine walkpgdir_rule hs hact (fun hnone hfree => ?_) fun t s₁ g₁ hs₁ hext hsame htables ht => ?_
    · refine ⟨g, hs, .refl, fun _ _ => rfl, nofun, subset_rfl, fun i hi => .inl hi, nofun,
        fun _ => ⟨hfree, _, hfirst, ?_⟩⟩
      simp [mem_tables, hnone]
    · have hact₁ : ∀ i, g₁.active d i := fun i => hext.active ▸ hact i
      rw [wp_bind, wp_gets, wp_ite]
      refine ⟨fun hpresent => ?_, fun _ => ?_⟩
      · -- The page is mapped, so the caller has allowed for the panic.
        rcases hE with hclear | hE
        · have hmapped := hclear (ofNat 20 v) (by omega) (by omega)
          rw [translate_eq_entryOf, ← hsame, pte_of_entry ht, entryOf_eq_none, hpresent] at hmapped
          cases hmapped
        · exact hE
      · have hs₂ := hs₁.pokeKernel (w := mkPte pa perm) (j := ptx (ofNat 20 v)) (hact₁ _) ht (by omega)
        have hpte₂ := pte_poke (w := mkPte pa perm) hs₁ hact₁ ht
        have htables₂ := tables_poke (w := mkPte pa perm) hs₁ hact₁ ht (ptx (ofNat 20 v))
        have hother : ∀ b : Vpn, b.toNat ≠ v →
            pte (s₁.poke t (ptx (ofNat 20 v)) (mkPte pa perm)) d b = pte s d b := by
          intro b hb
          rw [hpte₂, if_neg fun h => hb (by rw [h, hv]), hsame]
        have hext₂ := Extends.poke (w := mkPte pa perm) hs₁ hact₁ ht hext (ptx (ofNat 20 v))
        rw [wp_bind, wp_store, show ofNat 20 v + 1 = ofNat 20 (v + 1) from (BitVec.ofNat_add ..).symm]
        refine wp_imp (ih hs₂ hact₁ (by omega) (by omega) (hE.imp_left fun hclear b hb hb' => ?_))
          fun r s' ⟨g', h⟩ => ⟨g', h.books, hext₂.trans h.ext, fun b hb => ?_, fun hr b hb hb' => ?_, ?_,
          fun i hi => ?_,
            fun hr i hi => ?_, fun hr => ?_⟩
        · rw [translate_eq_entryOf, hother b (by omega), ← translate_eq_entryOf]
          exact hclear b (by omega) (by omega)
        · rw [h.outside b (by omega), hother b (by omega)]
        · by_cases hbv : b = ofNat 20 v
          · rw [h.outside b (.inl (by rw [hbv, hv]; omega)), hpte₂, if_pos hbv, hbv, BitVec.sub_self, BitVec.add_zero]
          · have hne : b.toNat ≠ v := fun h => hbv (BitVec.eq_of_toNat_eq (by rw [h, hv]))
            rw [h.inside hr b (by omega) (by omega), BitVec.ofNat_add]
            congr 1
            show pa + 1#20 + (b - (ofNat 20 v + 1#20)) = pa + (b - ofNat 20 v)
            bv_omega
        · refine subset_trans ?_ h.mono
          rw [htables₂, htables]
          exact Finset.subset_insert ..
        · rcases h.within i hi with hi | hi
          · rw [htables₂, htables, Finset.mem_insert] at hi
            rcases hi with rfl | hi
            · exact .inr hfirst
            · exact .inl hi
          · exact .inr (hrest hi)
        · obtain ⟨b, hb, hb', hi⟩ := hi
          by_cases hbv : b = v
          · apply h.mono
            have heq : i = pdx (ofNat 20 v) := Fin.ext (by omega)
            rw [htables₂, htables, heq]
            exact Finset.mem_insert_self ..
          · exact h.done hr i ⟨b, by omega, by omega, hi⟩
        · obtain ⟨hfree, i, hi, hnot⟩ := h.failed hr
          exact ⟨hfree, i, hrest hi, hnot⟩

theorem mappages_eq {perm : BitVec 12} {pa : Ppn} {va size : Nat} (hva : va % PGSIZE = 0) (hsize : size % PGSIZE = 0)
    (hpos : 0 < size) (hend : va + size ≤ 2 ^ 32) :
    mappages d (ofNat 32 va) (ofNat 32 size) pa perm =
      mapLoop d perm (size / PGSIZE) (ofNat 20 (va / PGSIZE)) pa := by
  simp only [PGSIZE] at *
  have hfirst : (ofNat 32 va).extractLsb' 12 20 = ofNat 20 (va / 4096) := by
    apply BitVec.eq_of_toNat_eq
    simp only [BitVec.extractLsb'_toNat, BitVec.toNat_ofNat, Nat.shiftRight_eq_div_pow]
    omega
  have hlast : (ofNat 32 va + ofNat 32 size - 1).extractLsb' 12 20 =
      ofNat 20 ((va + size - 1) / 4096) := by
    have hone : (1 : Word).toNat = 1 := rfl
    apply BitVec.eq_of_toNat_eq
    simp only [BitVec.extractLsb'_toNat, BitVec.toNat_sub, BitVec.toNat_add, BitVec.toNat_ofNat,
      Nat.shiftRight_eq_div_pow, hone]
    omega
  have hcount : (ofNat 20 ((va + size - 1) / 4096) - ofNat 20 (va / 4096)).toNat + 1 = size / 4096 := by
    simp only [BitVec.toNat_sub, BitVec.toNat_ofNat]
    omega
  unfold mappages
  dsimp only
  rw [hfirst, hlast, hcount]

/-- `mappages` for a page of user memory that the caller has. -/
theorem mapPage_rule {Q : Bool → Kernel → Prop} {perm : BitVec 12} {v : Nat} {mem : Ppn} (hs : Books y s g)
    (hact : ∀ i, g.active d i) (hv : v < 2 ^ 19) (hown : g.own mem = some (.kept .held))
    (hE : translate s d (ofNat 20 v) = none ∨ E .remap)
    (hnone : entry s d (pdx (ofNat 20 v)) = none → g.free = [] → Q false s)
    (hsome : ∀ s' g₁, Books y s' (g₁.map mem d (pdx (ofNat 20 v)) (ptx (ofNat 20 v))) →
      Extends d s g s' g₁ → tables s' d = insert (pdx (ofNat 20 v)) (tables s d) →
      (∀ b, pte s' d b = if b = ofNat 20 v then mkPte mem perm else pte s d b) → Q true s') :
    wp (mapPage d v mem perm) Q E s := by
  have hpage : v * PGSIZE / PGSIZE = v := Nat.mul_div_cancel v (by decide)
  rw [mapPage, mappages_eq (Nat.mul_mod_left ..) (by decide) (by decide) (by simp only [PGSIZE]; omega), hpage,
    show PGSIZE / PGSIZE = 0 + 1 from rfl, mapLoop, wp_bind]
  refine walkpgdir_rule hs hact hnone fun t s₁ g₁ hs₁ hext hsame htables ht => ?_
  have hact₁ : ∀ i, g₁.active d i := fun i => hext.active ▸ hact i
  rw [wp_bind, wp_gets, wp_ite]
  refine ⟨fun hpresent => ?_, fun habsent => ?_⟩
  · rcases hE with hclear | hE
    · rw [translate_eq_entryOf, ← hsame, pte_of_entry ht, entryOf_eq_none, hpresent] at hclear
      cases hclear
    · exact hE
  · have hown₁ : g₁.own mem = some (.kept .held) := by
      rcases hext.own mem with heq | ⟨hfree, -⟩
      · exact heq.trans hown
      · cases hown.symm.trans hfree
    have hi : (pdx (ofNat 20 v)).val < 512 := by
      rw [pdx_ofNat (by omega)]
      omega
    have htables₂ := tables_poke (w := mkPte mem perm) hs₁ hact₁ ht (ptx (ofNat 20 v))
    refine hsome _ g₁ (hs₁.map (hact₁ _) ht hi (if_neg habsent) hown₁ (entryOf_mkPte mem perm))
      (hext.poke hs₁ hact₁ ht _) (htables₂.trans htables) fun b => ?_
    exact (pte_poke hs₁ hact₁ ht b).trans (by rw [hsame])

/-! ## Freeing -/

/-- A page that was the caller's goes to the free list, and nothing else changes. -/
def Ghost.release (g : Ghost) (p : Ppn) : Ghost :=
  { g with
    free := p :: g.free
    own := update g.own p (some .free) }

theorem give_unmap (h : g.kept p = none) : (g.unmap p).give p = g.release p := by
  unfold Ghost.give Ghost.unmap Ghost.release
  simp only [update_idem, ← h, update_eq_self]

/-- `deallocuvm` frees the user memory of `d` from page `lo` up to `hi`. -/
def Owner.release (d : Ppn) (lo hi : Nat) : Owner → Owner
  | .user d' i j => if d' = d ∧ lo ≤ vpn i j ∧ vpn i j < hi then .free else .user d' i j
  | o => o

theorem release_of_le (h : hi ≤ lo) : ∀ o, Owner.release d lo hi o = o
  | .free => rfl
  | .kept _ => rfl
  | .table _ _ => rfl
  | .user d' i j => if_neg fun ⟨_, h₁, h₂⟩ => by omega

theorem map_release_congr {o : Option Owner} {lo' : Nat}
    (h : ∀ i j, o = some (.user d i j) → vpn i j < hi → (lo ≤ vpn i j ↔ lo' ≤ vpn i j)) :
    o.map (Owner.release d lo hi) = o.map (Owner.release d lo' hi) := by
  match o with
  | none => rfl
  | some .free => rfl
  | some (.kept _) => rfl
  | some (.table _ _) => rfl
  | some (.user d' i j) =>
    refine congrArg some (if_congr (and_congr_right ?_) rfl rfl)
    rintro rfl
    exact and_congr_left (h i j rfl)

theorem Safe.release (hp : Safe (fun p o => o.Of d p) g p) : (g.own p).map (Owner.release d lo hi) = g.own p := by
  cases ho : g.own p with
  | none => rfl
  | some o =>
    match o, hp o ho with
    | .free, _ => rfl
    | .kept _, _ => rfl
    | .table _ _, _ => rfl
    | .user d' i j, h => exact congrArg some (if_neg fun h' => h.2 h'.1)

/-- The page is a page table of `d`, or its user memory from page `lo` up to `hi`. -/
def Owner.New (d : Ppn) (lo hi : Nat) : Owner → Prop
  | .table d' _ => d' = d
  | .user d' i j => d' = d ∧ lo ≤ vpn i j ∧ vpn i j < hi
  | _ => False

theorem Owner.New.of {o : Owner} (h : o.New d lo hi) : o.Of d p := by
  cases o with
  | free => exact h
  | kept u => exact h.elim
  | table d' i => exact h
  | user d' i j => exact h.1

theorem Owner.New.mono {lo' hi' : Nat} {o : Owner} (hlo : lo' ≤ lo) (hhi : hi ≤ hi') (h : o.New d lo hi) :
    o.New d lo' hi' := by
  cases o with
  | user d' i j => exact ⟨h.1, hlo.trans h.2.1, h.2.2.trans_le hhi⟩
  | _ => exact h

theorem freed_poke {j : Index} {w : Word} (h : p ≠ t) :
    (Books.freed s p).poke t j w = Books.freed (s.poke t j w) p := by
  unfold Books.freed Kernel.poke Kernel.fill
  dsimp only
  rw [update_of_ne h.symm, update_comm h]

theorem freed_books {i j : Index} (hs : Books y s g) (hact : g.active d i) (ht : entry s d i = some t)
    (hi : i.val < 512) (hp : entry s t j = some p) : Books y ((Books.freed s p).poke t j 0) (g.release p) := by
  have hown := hs.own_user hact hi ht hp
  have hpt : p ≠ t := by
    rintro rfl
    cases hown.symm.trans (hs.own_table hact ht)
  have hgive := (hs.unmap hact ht hi hp entryOf_zero).give (update_self ..)
  rwa [← freed_poke hpt, give_unmap (kept_none hs hown nofun)] at hgive

theorem pte_freed (hs : Books y s g) (hact : ∀ i, g.active d i) (hdir : g.own p ≠ some (.kept .dir))
    (htable : ∀ i, g.own p ≠ some (.table d i)) (a : Vpn) : pte (Books.freed s p) d a = pte s d a :=
  pte_fill_of_ne (s := s) hs hact hdir htable a

/-- The user memory of `d` from page `lo` up to `hi` has been unmapped and freed, and nothing else has changed. -/
structure Released (y : Layout) (d : Ppn) (lo hi : Nat) (s : Kernel) (g : Ghost) (s' : Kernel) (g' : Ghost) : Prop where
  books : Books y s' g'
  kept : g'.kept = g.kept
  active : g'.active = g.active
  own : ∀ p, g'.own p = (g.own p).map (Owner.release d lo hi)
  frame : Frame (fun _ o => o.New d lo hi) s g s'
  pte : ∀ b, pte s' d b = if lo ≤ b.toNat ∧ b.toNat < hi ∧ present (Vm.pte s d b) = true then 0 else Vm.pte s d b

theorem Released.refl (hs : Books y s g) (h : hi ≤ lo) : Released y d lo hi s g s g where
  books := hs
  kept := rfl
  active := rfl
  own p := by
    rw [funext (release_of_le h)]
    exact (Option.map_id' ..).symm
  frame := .refl
  pte b := (if_neg (by omega)).symm

theorem Released.skip {lo' : Nat} (hs : Books y s g) (h : Released y d lo' hi s g s' g') (hlo : lo ≤ lo')
    (hnone : ∀ b : Vpn, lo ≤ b.toNat → b.toNat < lo' → b.toNat < hi → translate s d b = none) (hhi : hi ≤ 2 ^ 20) :
    Released y d lo hi s g s' g' where
  books := h.books
  kept := h.kept
  active := h.active
  own p := by
    refine (h.own p).trans (map_release_congr fun i j ho hlt => ?_)
    by_contra hne
    have hnat : (ofNat 20 (vpn i j)).toNat = vpn i j := toNat_ofNat_vpn (by omega)
    have hmapped := translate_of_own (a := ofNat 20 (vpn i j)) hs ho hnat.symm
    rw [hnone _ (by omega) (by omega) (by omega)] at hmapped
    cases hmapped
  frame := h.frame.mono fun _ _ => Owner.New.mono hlo le_rfl
  pte b := by
    rw [h.pte]
    by_cases hb : lo ≤ b.toNat ∧ b.toNat < lo' ∧ b.toNat < hi
    · have habsent := hnone b hb.1 hb.2.1 hb.2.2
      rw [translate_eq_entryOf, entryOf_eq_none] at habsent
      rw [if_neg (by omega), if_neg (by simp [habsent])]
    · refine if_congr ⟨fun h => ⟨by omega, h.2⟩, fun h => ⟨?_, h.2⟩⟩ rfl rfl
      have := h.2.1
      omega

/-- The page at `lo` is freed, and then the others. -/
theorem Released.first (hs : Books y s g) (hact : ∀ i, g.active d i)
    (ht : entry s d (pdx (ofNat 20 lo)) = some t) (hp : entry s t (ptx (ofNat 20 lo)) = some p) (hlo : lo < hi)
    (hhi : hi ≤ 2 ^ 19)
    (h : Released y d (lo + 1) hi ((Books.freed s p).poke t (ptx (ofNat 20 lo)) 0) (g.release p) s' g') :
    Released y d lo hi s g s' g' := by
  have hnat : (ofNat 20 lo).toNat = lo := toNat_ofNat_vpn (by omega)
  have hpdx : (pdx (ofNat 20 lo)).val = lo / 1024 := pdx_ofNat (by omega)
  have hvpn := vpn_ofNat (v := lo) (by omega)
  have htown := hs.own_table (hact _) ht
  have hown := hs.own_user (hact _) (by omega) ht hp
  have hpt : p ≠ t := by
    rintro rfl
    cases hown.symm.trans htown
  have hnew : Owner.New d lo hi (.user d (pdx (ofNat 20 lo)) (ptx (ofNat 20 lo))) := ⟨rfl, by omega, by omega⟩
  refine ⟨h.books, h.kept, h.active, fun q => ?_, ?_, fun b => ?_⟩
  · rw [h.own, show (g.release p).own q = _ from update_apply ..]
    split
    · next hq =>
      rw [hq, hown]
      exact congrArg some (if_pos ⟨rfl, by omega, by omega⟩).symm
    · next hq =>
      refine map_release_congr fun i j ho _ => ?_
      have hne : vpn i j ≠ lo := by
        intro hij
        have htrans := translate_of_own (a := ofNat 20 lo) hs ho (hij.trans hnat.symm)
        rw [translate, ht] at htrans
        exact hq (Option.some.inj (htrans.symm.trans hp))
      omega
  · have hstored : Frame (fun _ o => o.New d lo hi) s g ((Books.freed s p).poke t (ptx (ofNat 20 lo)) 0) :=
      Frame.poke (Frame.freed .refl hown (.inr hnew)) htown (.inr rfl)
    refine hstored.trans (fun q hq => ?_) h.frame
    refine (hq.congr (.inl ?_)).mono fun _ => Owner.New.mono (Nat.le_succ lo) le_rfl
    exact update_of_ne (hq.ne hown (.inr hnew)) ..
  · have hpte₁ : Vm.pte ((Books.freed s p).poke t (ptx (ofNat 20 lo)) 0) d b =
        if b = ofNat 20 lo then 0 else Vm.pte s d b := by
      have hunmapped := hs.unmap (hact _) ht (by omega) hp entryOf_zero
      have hheld : (g.unmap p).own p = some (.kept .held) := update_self ..
      rw [freed_poke hpt, pte_freed hunmapped hact (by rw [hheld]; nofun) (by rw [hheld]; nofun), pte_poke hs hact ht]
    rw [h.pte, hpte₁]
    by_cases hb : b = ofNat 20 lo
    · have hpresent : present (Vm.pte s d b) = true := by
        rw [hb, pte_of_entry ht]
        exact (entryOf_eq_some.mp hp).1
      rw [if_pos hb, if_neg (by simp [present]), if_pos ⟨by rw [hb, hnat], by rw [hb, hnat]; exact hlo, hpresent⟩]
    · have hne : b.toNat ≠ lo := fun heq => hb (BitVec.eq_of_toNat_eq (heq.trans hnat.symm))
      rw [if_neg hb]
      exact if_congr ⟨fun h => ⟨by omega, h.2⟩, fun h => ⟨by omega, h.2⟩⟩ rfl rfl

theorem deallocLoop_exact {top fuel v : Nat} (hs : Books y s g) (hact : ∀ i, g.active d i) (htop : top ≤ 2 ^ 19)
    (hfuel : top ≤ v + fuel) :
    wp (deallocLoop y d top fuel v) (fun _ s' => ∃ g', Released y d v top s g s' g') E s := by
  induction fuel generalizing v s g with
  | zero =>
    rw [deallocLoop, if_neg (by omega)]
    exact ⟨g, .refl hs (by omega)⟩
  | succ fuel ih =>
    rw [deallocLoop]
    by_cases hv : v < top
    · have hpdx : (pdx (ofNat 20 v)).val = v / 1024 := pdx_ofNat (by omega)
      rw [if_pos hv, wp_bind, walkpgdir_false]
      cases ht : entry s d (pdx (ofNat 20 v)) with
      | none =>
        -- No page table: no user memory up to the first page of the next one.
        refine wp_imp (ih hs hact (by omega)) fun _ s' ⟨g', h⟩ => ⟨g',
          h.skip hs (by omega) (fun b hb hb' hlt => ?_) (by omega)⟩
        have hsame : pdx b = pdx (ofNat 20 v) := Fin.ext (by
          rw [hpdx]
          show b.toNat / 1024 = v / 1024
          omega)
        rw [translate, hsame, ht]
        rfl
      | some t =>
        have hi : (pdx (ofNat 20 v)).val < 512 := by omega
        show wp (gets _ >>= _) _ E s
        rw [wp_bind, wp_gets]
        by_cases hpte : present (s.mem t (ptx (ofNat 20 v))) = true
        · have hp : entry s t (ptx (ofNat 20 v)) = some (addr (s.mem t (ptx (ofNat 20 v)))) := if_pos hpte
          have hram := hs.ram _ _ (hs.own_user (hact _) hi ht hp)
          have hne : addr (s.mem t (ptx (ofNat 20 v))) ≠ 0 := by
            intro h0
            have hpos := y.data
            have hle := hram.1
            rw [h0] at hle
            change y.endPage ≤ 0 at hle
            omega
          rw [if_pos hpte, if_neg hne, wp_bind, wp_kfree hram, wp_bind, wp_store]
          exact wp_imp (ih (freed_books hs (hact _) ht hi hp) hact (by omega)) fun _ s' ⟨g', h⟩ =>
            ⟨g', .first hs hact ht hp hv htop h⟩
        · rw [if_neg hpte]
          refine wp_imp (ih hs hact (by omega)) fun _ s' ⟨g', h⟩ =>
            ⟨g', h.skip hs (Nat.le_succ v) (fun b hb hb' _ => ?_) (by omega)⟩
          have hbv : b = ofNat 20 v := BitVec.eq_of_toNat_eq (by rw [toNat_ofNat_vpn (by omega)]; omega)
          rw [hbv, translate, ht]
          exact entryOf_eq_none.mpr (Bool.eq_false_iff.mpr hpte)
    · rw [if_neg hv]
      exact ⟨g, .refl hs (by omega)⟩

theorem deallocuvm_exact {oldsz newsz : Nat} (hs : Books y s g) (hact : ∀ i, g.active d i) (hold : oldsz ≤ KERNBASE)
    (hnew : newsz ≤ KERNBASE) :
    wp (deallocuvm y d oldsz newsz) (fun r s' => r = min oldsz newsz ∧
      ∃ g', Released y d (roundup newsz) (below oldsz) s g s' g') E s := by
  rw [deallocuvm, wp_ite]
  refine ⟨fun hle => ⟨(min_eq_left hle).symm, g, .refl hs ?_⟩, fun hgt => ?_⟩
  · rw [roundup_eq_below hnew]
    exact below_mono hle
  · rw [wp_bind]
    refine wp_imp (deallocLoop_exact hs hact (below_le hold) (by omega)) fun _ s' h => ?_
    exact ⟨(min_eq_right (by omega)).symm, h⟩

theorem deallocuvm_wp {oldsz newsz : Nat} (hs : Books y s g) (hact : ∀ i, g.active d i) (hold : oldsz ≤ KERNBASE)
    (hnew : newsz ≤ KERNBASE) :
    wp (deallocuvm y d oldsz newsz) (fun _ s' => ∃ g', Books y s' g' ∧ g'.kept = g.kept ∧ g'.active = g.active ∧
      (∀ p, g'.own p = (g.own p).map (Owner.release d (roundup newsz) (below oldsz))) ∧
      Frame (fun p o => o.Of d p) s g s') E s :=
  wp_imp (deallocuvm_exact hs hact hold hnew) fun _ _ ⟨_, g', h⟩ =>
    ⟨g', h.books, h.kept, h.active, h.own, h.frame.mono fun _ _ => Owner.New.of⟩

/-- What `freevm` frees: the page tables in entries that are not in `rest`. -/
def Owner.detach (d : Ppn) (rest : List Index) : Owner → Owner
  | .table d' i => if d' = d ∧ i ∉ rest then .free else .table d' i
  | o => o

section detach

variable {o : Option Owner} {rest rest' : List Index} {i : Index}

theorem map_detach_congr (h : ∀ i, o = some (.table d i) → (i ∈ rest ↔ i ∈ rest')) :
    o.map (Owner.detach d rest) = o.map (Owner.detach d rest') := by
  match o with
  | none => rfl
  | some .free => rfl
  | some (.kept _) => rfl
  | some (.user _ _ _) => rfl
  | some (.table d' i) =>
    refine congrArg some (if_congr (and_congr_right ?_) rfl rfl)
    rintro rfl
    exact not_congr (h i rfl)

theorem map_detach_table : o.map (Owner.detach d rest) = some (.table d i) ↔ o = some (.table d i) ∧ i ∈ rest := by
  match o with
  | none => simp
  | some .free => simp [Owner.detach]
  | some (.kept _) => simp [Owner.detach]
  | some (.user _ _ _) => simp [Owner.detach]
  | some (.table d' i') =>
    by_cases h : d' = d ∧ i' ∉ rest
    · obtain ⟨rfl, h⟩ := h
      simp only [Option.map_some, Owner.detach, h, not_false_eq_true, and_self, if_true, Option.some.injEq,
        reduceCtorEq, Owner.table.injEq, true_and, false_iff, not_and]
      rintro rfl
      exact h
    · simp only [Option.map_some, Owner.detach, if_neg h, Option.some.injEq, Owner.table.injEq]
      refine ⟨fun heq => ⟨heq, ?_⟩, And.left⟩
      obtain ⟨rfl, rfl⟩ := heq
      by_contra hi
      exact h ⟨rfl, hi⟩

theorem map_detach_user {j : Index} (h : o.map (Owner.detach d rest) = some (.user d i j)) :
    o = some (.user d i j) := by
  match o with
  | none => cases h
  | some .free => cases h
  | some (.kept _) => cases h
  | some (.user _ _ _) => exact h
  | some (.table d' i') =>
    simp only [Option.map_some, Owner.detach, Option.some.injEq] at h
    split at h <;> cases h

end detach

/-- The second loop of `freevm`, for a directory without user memory. -/
theorem freeTables_wp {l : List Index} (hl : ∀ i, i ∈ l) (hnodup : l.Nodup) (hs : Books y s g)
    (hact : ∀ i, g.active d i) (huser : ∀ p i j, g.own p ≠ some (.user d i j)) :
    wp (each (fun i => do
        let pde ← gets fun s => s.mem d i
        if present pde then kfree y (addr pde)) l)
      (fun _ s' => ∃ g', Books y s' g' ∧ g'.kept = g.kept ∧ (∀ d' i, g'.active d' i ↔ g.active d' i ∧ d' ≠ d) ∧
        (∀ p, g'.own p = (g.own p).map (Owner.detach d [])) ∧ Frame (fun p o => o.Of d p) s g s') E s := by
  have hstart : ∀ o : Option Owner, o.map (Owner.detach d l) = o := by
    intro o
    match o with
    | none => rfl
    | some .free => rfl
    | some (.kept _) => rfl
    | some (.user _ _ _) => rfl
    | some (.table d' i) => exact congrArg some (if_neg fun h => h.2 (hl i))
  -- The entries that are left still count; the page tables of the others are free.
  have hloop := wp_each (E := E) (s := s) (l := l)
    (f := fun i => do
      let pde ← gets fun s => s.mem d i
      if present pde then kfree y (addr pde))
    (fun rest t => rest.Nodup ∧ ∃ g', Books y t g' ∧ g'.kept = g.kept ∧
      (∀ d' i, g'.active d' i ↔ g.active d' i ∧ (d' = d → i ∈ rest)) ∧
      (∀ p, g'.own p = (g.own p).map (Owner.detach d rest)) ∧ Frame (fun p o => o.Of d p) s g t)
    ?_ ⟨hnodup, g, hs, rfl, fun d' i => by simp [hl], fun p => (hstart _).symm, .refl⟩
  · refine wp_imp hloop fun _ s' ⟨_, g', hs', hkept, hactive, hown⟩ => ⟨g', hs', hkept, fun d' i => ?_, hown⟩
    simp [hactive]
  · rintro i rest t - ⟨hnodup, g', hs', hkept, hactive, hown, hframe⟩
    obtain ⟨hi, hnodup⟩ := List.nodup_cons.mp hnodup
    have hacti : g'.active d i := (hactive d i).mpr ⟨hact i, fun _ => mem_cons_self ..⟩
    have hactive' : ∀ d' i', (g'.deactivate d i).active d' i' ↔ g.active d' i' ∧ (d' = d → i' ∈ rest) := by
      intro d' i'
      show g'.active d' i' ∧ ¬(d' = d ∧ i' = i) ↔ _
      rw [hactive, mem_cons]
      by_cases hd : d' = d
      · by_cases hi' : i' = i
        · subst hi'
          simp [hd, hi]
        · simp [hd, hi']
      · simp [hd]
    have hother : ∀ q, g'.own q ≠ some (.table d i) → g'.own q = (g.own q).map (Owner.detach d rest) := by
      intro q hq
      rw [hown] at hq ⊢
      refine map_detach_congr fun i' hi' => ?_
      rw [mem_cons, or_iff_right]
      rintro rfl
      exact hq (map_detach_table.mpr ⟨hi', mem_cons_self ..⟩)
    rw [wp_bind, wp_gets]
    by_cases hpde : present (t.mem d i) = true
    · have ht : entry t d i = some (addr (t.mem d i)) := if_pos hpde
      have htown := hs'.own_table hacti ht
      have hdetach :=
        hs'.detach hacti ht fun j q hq => huser q i j (map_detach_user ((hown q).symm.trans ((hs'.owner q _).mpr hq)))
      rw [if_pos hpde]
      refine kfree_rule hdetach (update_self ..) fun hgive => ?_
      have hnone : g'.kept (addr (t.mem d i)) = none := kept_none hs' htown nofun
      rw [give_unmap (g := g'.deactivate d i) hnone] at hgive
      have htown₀ : g.own (addr (t.mem d i)) = some (.table d i) := by
        rw [hown] at htown
        exact (map_detach_table.mp htown).1
      refine ⟨hnodup, _, hgive, hkept, hactive', fun q => ?_, hframe.freed htown₀ (.inr rfl)⟩
      show update g'.own _ _ q = _
      rw [update_apply]
      split
      · next hq =>
        subst hq
        rw [htown₀]
        exact congrArg some (if_pos ⟨rfl, hi⟩).symm
      · next hq =>
        refine hother q fun h => hq ?_
        exact Option.some.inj (((hs'.owner q _).mp h).2.symm.trans ht)
    · have ht : entry t d i = none := if_neg hpde
      rw [if_neg hpde]
      refine ⟨hnodup, _, hs'.drop ht, hkept, hactive', fun q => hother q fun h => ?_, hframe⟩
      cases ht.symm.trans ((hs'.owner q _).mp h).2

/-- What `freevm` frees: all that belongs to the directory. -/
def Owner.reclaim (d p : Ppn) : Owner → Owner
  | .kept .dir => if p = d then .free else .kept .dir
  | .table d' i => if d' = d then .free else .table d' i
  | .user d' i j => if d' = d then .free else .user d' i j
  | o => o

theorem freevm_wp (hs : Books y s g) (hact : ∀ i, g.active d i) :
    wp (freevm y d) (fun _ s' => ∃ g', Books y s' g' ∧ g'.kept = update g.kept d none ∧
      (∀ d' i, g'.active d' i ↔ g.active d' i ∧ d' ≠ d) ∧ (∀ p, g'.own p = (g.own p).map (Owner.reclaim d p)) ∧
      Frame (fun p o => o.Of d p) s g s') E s := by
  have hdir := hs.own_dir (hact 0)
  rw [freevm, wp_bind]
  have hall := mem_finRange (n := 1024)
  have hnodup := nodup_finRange 1024
  generalize finRange 1024 = l at hall hnodup ⊢
  refine wp_imp (deallocuvm_wp hs hact le_rfl (Nat.zero_le _)) fun _ s₁ h₁ => ?_
  obtain ⟨g₁, hs₁, hkept₁, hact₁, hown₁, hframe₁⟩ := h₁
  have hrange : ∀ {i j : Index}, i.val < 512 → roundup 0 ≤ vpn i j ∧ vpn i j < below KERNBASE := by
    intro i j hi
    have hj := j.isLt
    simp only [roundup, below, vpn, KERNBASE, PGSIZE]
    omega
  have huser : ∀ p i j, g₁.own p ≠ some (.user d i j) := by
    intro p i j h
    have hi := ((hs₁.owner p _).mp h).2.1
    rw [hown₁] at h
    obtain ⟨o, -, ho'⟩ := Option.map_eq_some_iff.mp h
    cases o with
    | free => cases ho'
    | kept _ => cases ho'
    | table _ _ => cases ho'
    | user d' i' j' =>
      simp only [Owner.release] at ho'
      split at ho'
      · cases ho'
      · next hnot =>
        cases ho'
        exact hnot ⟨rfl, hrange hi⟩
  rw [wp_bind]
  refine wp_imp (freeTables_wp hall hnodup hs₁ (fun i => hact₁ ▸ hact i) huser) fun _ s₂ h₂ => ?_
  obtain ⟨g₂, hs₂, hkept₂, hact₂, hown₂, hframe₂⟩ := h₂
  have hdir₂ : g₂.own d = some (.kept .dir) := by
    rw [hown₂, hown₁, hdir]
    rfl
  refine kfree_rule (hs₂.retire hdir₂ fun i h => ((hact₂ d i).mp h).2 rfl) (update_self ..) fun hgive =>
    ⟨_, hgive, ?_, ?_, fun p => ?_, ?_⟩
  · show update (update g₂.kept d _) d none = _
    rw [update_idem, hkept₂, hkept₁]
  · intro d' i
    show g₂.active d' i ↔ _
    rw [hact₂, hact₁]
  · show update (update g₂.own d _) d _ p = _
    rw [update_idem, update_apply]
    split
    · next hp =>
      subst hp
      rw [hdir]
      exact congrArg some (if_pos rfl).symm
    · next hp =>
      rw [hown₂, hown₁]
      cases ho : g.own p with
      | none => rfl
      | some o =>
        cases o with
        | free => rfl
        | kept k =>
          cases k with
          | dir => exact congrArg some (if_neg hp).symm
          | held => rfl
        | table d' i => exact congrArg some (if_congr (by simp) rfl rfl)
        | user d' i j =>
          have hi := ((hs.owner p _).mp ho).2.1
          have hfree : Owner.release d (roundup 0) (below KERNBASE) (.user d' i j) = Owner.reclaim d p (.user d' i j) :=
            if_congr (and_iff_left (hrange hi)) rfl rfl
          simp only [Option.map_some, hfree]
          simp only [Owner.reclaim]
          split <;> rfl
  · refine Frame.freed (hframe₁.trans (fun p hp => hp.congr (.inl ?_)) hframe₂) hdir (.inr rfl)
    rw [hown₁]
    exact hp.release

/-! ## Pages that a directory gets -/

/-- Some pages have gone from the free list to owners with `R`, and nothing else has changed. -/
def Gets (R : Ppn → Owner → Prop) (g g' : Ghost) : Prop :=
  ∀ p, g'.own p = g.own p ∨ g.own p = some .free ∧ ∃ o, g'.own p = some o ∧ R p o

section

variable {R R' : Ppn → Owner → Prop} {g₁ : Ghost}

theorem Gets.refl : Gets R g g := fun _ => .inl rfl

theorem Gets.mono (h : Gets R g g') (hR : ∀ p o, R p o → R' p o) : Gets R' g g' := by
  intro p
  exact (h p).imp_right fun ⟨hfree, o, ho, hRo⟩ => ⟨hfree, o, ho, hR p o hRo⟩

theorem Gets.trans (hR : ∀ p, ¬R p .free) (h : Gets R g g₁) (h' : Gets R g₁ g') : Gets R g g' := by
  intro p
  rcases h' p with heq | ⟨hfree, o, ho, hRo⟩
  · rw [heq]
    exact h p
  · rcases h p with heq | ⟨-, o', ho', hRo'⟩
    · exact .inr ⟨heq ▸ hfree, o, ho, hRo⟩
    · cases hfree.symm.trans ho'
      exact (hR p hRo').elim

end

theorem Extends.gets (h : Extends d s g s' g') (lo hi : Nat) : Gets (fun _ o => o.New d lo hi) g g' := by
  intro p
  exact (h.own p).imp_right fun ⟨hfree, i, hi⟩ => ⟨hfree, .table d i, hi, rfl⟩

theorem not_of {o : Owner} (hs : Books y s g) (hd : g.own d ≠ some (.kept .dir)) (ho : g.own p = some o) :
    ¬o.Of d p := by
  intro h
  match o, h with
  | .kept .dir, h =>
    subst h
    exact hd ho
  | .table d' i, h =>
    subst h
    exact hd (hs.own_dir ((hs.owner p _).mp ho).1)
  | .user d' i j, h =>
    subst h
    exact hd (hs.own_dir ((hs.owner p _).mp ho).1)

theorem reclaim_of : ∀ {o : Owner}, o.Of d p → o.reclaim d p = .free
  | .kept .dir, h => if_pos h
  | .table _ _, h => if_pos h
  | .user _ _ _, h => if_pos h

theorem reclaim_not_of : ∀ {o : Owner}, ¬o.Of d p → o.reclaim d p = o
  | .free, _ => rfl
  | .kept .held, _ => rfl
  | .kept .dir, h => if_neg h
  | .table _ _, h => if_neg h
  | .user _ _ _, h => if_neg h

theorem reclaim_gets (hs : Books y s g) (hd : g.own d ≠ some (.kept .dir)) (h : Gets (fun p o => o.Of d p) g g')
    (p : Ppn) :
    (g'.own p).map (Owner.reclaim d p) = g.own p := by
  rcases h p with heq | ⟨hfree, o, ho, hof⟩
  · rw [heq]
    cases ho : g.own p with
    | none => rfl
    | some o => exact congrArg some (reclaim_not_of (not_of hs hd ho))
  · rw [ho, hfree]
    exact congrArg some (reclaim_of hof)

/-! ## setupkvm -/

def Kmap.size (k : Kmap) : Nat := (ofNat 32 k.physEnd - ofNat 32 k.physStart).toNat
def Kmap.first (k : Kmap) : Nat := k.virt / PGSIZE
def Kmap.pages (k : Kmap) : Nat := k.size / PGSIZE

structure Kmap.Aligned (k : Kmap) : Prop where
  virt : k.virt % PGSIZE = 0
  size : k.size % PGSIZE = 0
  pos : 0 < k.size
  kernel : KERNBASE ≤ k.virt
  top : k.virt + k.size ≤ 2 ^ 32

/-- The entry for a virtual page. -/
def kernelPte : List Kmap → Vpn → Word
  | [], _ => 0
  | k :: ks, b =>
    if k.first ≤ b.toNat ∧ b.toNat < k.first + k.pages then
      mkPte (ofNat 20 (k.physStart / PGSIZE) + (b - ofNat 20 k.first)) k.perm
    else kernelPte ks b

/-- The entries are in order, from page `lo` on. -/
def Ascending (lo : Nat) : List Kmap → Prop
  | [] => True
  | k :: ks => k.Aligned ∧ lo ≤ k.first ∧ Ascending (k.first + k.pages) ks

theorem kernelPte_of_lt {ks : List Kmap} {b : Vpn} (hks : Ascending lo ks) (hb : b.toNat < lo) :
    kernelPte ks b = 0 := by
  induction ks generalizing lo with
  | nil => rfl
  | cons k ks ih =>
    obtain ⟨-, hlo, hks⟩ := hks
    rw [kernelPte, if_neg (by omega)]
    exact ih hks (by omega)

theorem setupLoop_wp {ks : List Kmap} {T : Finset Index} (hs : Books y s g) (hact : ∀ i, g.active d i)
    (hks : Ascending lo ks) (hclear : ∀ b : Vpn, lo ≤ b.toNat → pte s d b = 0) (htables : tables s d ⊆ T)
    (hT : ∀ k ∈ ks, ∀ i, Covered k.first k.pages i → i ∈ T) :
    wp (setupLoop y d ks) (fun r s' => ∃ g', Books y s' g' ∧
      match r with
      | some d' => d' = d ∧ Extends d s g s' g' ∧
          (∀ i, i ∈ tables s' d ↔ i ∈ tables s d ∨ ∃ k ∈ ks, Covered k.first k.pages i) ∧
          ∀ b : Vpn, pte s' d b = if lo ≤ b.toNat then kernelPte ks b else pte s d b
      | none => g.free.length + (tables s d).card < T.card ∧ g'.kept = update g.kept d none ∧
          (∀ d' i, g'.active d' i ↔ g.active d' i ∧ d' ≠ d) ∧ (∀ p, g'.own p = (g.own p).map (Owner.reclaim d p)) ∧
          Frame (fun p o => o.Of d p) s g s') E s := by
  induction ks generalizing s g lo with
  | nil =>
    refine ⟨g, hs, rfl, .refl, fun i => by simp, fun b => ?_⟩
    split
    · next hb => exact hclear b hb
    · rfl
  | cons k ks ih =>
    obtain ⟨hk, hlo, hks⟩ := hks
    have hbound : 2 ^ 19 ≤ k.first ∧ k.first + k.pages ≤ 2 ^ 20 := by
      have := hk.virt
      have := hk.size
      have := hk.kernel
      have := hk.top
      simp only [Kmap.first, Kmap.pages, PGSIZE, KERNBASE] at *
      omega
    have hword : ofNat 32 k.physEnd - ofNat 32 k.physStart = ofNat 32 k.size := by
      rw [Kmap.size, BitVec.ofNat_toNat, BitVec.setWidth_eq]
    rw [setupLoop, hword, mappages_eq hk.virt hk.size hk.pos hk.top, wp_bind]
    refine wp_imp (mapLoop_wp hs hact hbound.1 hbound.2 (.inl fun b hb _ => ?_)) fun r s₁ h => ?_
    · rw [translate_eq_entryOf, hclear b (hlo.trans hb)]
      exact entryOf_zero
    obtain ⟨g₁, h⟩ := h
    have hact₁ : ∀ i, g₁.active d i := fun i => h.ext.active ▸ hact i
    have hsub : tables s₁ d ⊆ T := by
      intro i hi
      rcases h.within i hi with hi | hi
      · exact htables hi
      · exact hT k (mem_cons_self ..) i hi
    cases r with
    | true =>
      have hclear₁ : ∀ b : Vpn, k.first + k.pages ≤ b.toNat → pte s₁ d b = 0 := by
        intro b hb
        rw [h.outside b (.inr hb)]
        exact hclear b (by omega)
      refine wp_imp (ih h.books hact₁ hks hclear₁ hsub fun k' hk' => hT k' (mem_cons_of_mem _ hk'))
        fun r s' h' => ?_
      obtain ⟨g', hs', hr⟩ := h'
      refine ⟨g', hs', ?_⟩
      cases r with
      | some d' =>
        obtain ⟨hd, hext, htab, hpte⟩ := hr
        refine ⟨hd, h.ext.trans hext, fun i => ?_, fun b => ?_⟩
        · rw [htab, exists_mem_cons_iff, ← or_assoc]
          refine or_congr_left ⟨h.within i, ?_⟩
          rintro (hi | hi)
          · exact h.mono hi
          · exact h.done rfl i hi
        · rw [hpte, kernelPte]
          by_cases hb : k.first ≤ b.toNat ∧ b.toNat < k.first + k.pages
          · rw [if_neg (by omega), if_pos (by omega), if_pos hb]
            exact h.inside rfl b hb.1 hb.2
          · rw [if_neg hb]
            by_cases hlow : b.toNat < k.first
            · have hout := h.outside b (.inl hlow)
              rw [if_neg (by omega), hout, kernelPte_of_lt hks (by omega)]
              split
              · next hb => exact hclear b hb
              · rfl
            · rw [if_pos (by omega), if_pos (by omega)]
      | none =>
        obtain ⟨hcount, hkept, hactive, hown, hframe⟩ := hr
        refine ⟨h.ext.count ▸ hcount, h.ext.kept ▸ hkept, h.ext.active ▸ hactive, fun p => ?_, h.ext.frameOf hframe⟩
        rw [hown]
        rcases h.ext.own p with heq | ⟨hfree, i, hi⟩
        · rw [heq]
        · rw [hi, hfree]
          exact congrArg some (if_pos rfl)
    | false =>
      obtain ⟨hfree, i, hi, hnot⟩ := h.failed rfl
      have hlt : (tables s₁ d).card < T.card :=
        Finset.card_lt_card ⟨hsub, fun hle => hnot (hle (hT k (mem_cons_self ..) i hi))⟩
      have hcount := h.ext.count
      rw [hfree, length_nil, Nat.zero_add] at hcount
      show wp (freevm y d >>= _) _ E s₁
      rw [wp_bind]
      refine wp_imp (freevm_wp h.books hact₁) fun _ s' h' => ?_
      obtain ⟨g', hs', hkept, hactive, hown, hframe⟩ := h'
      refine ⟨g', hs', hcount ▸ hlt, h.ext.kept ▸ hkept, h.ext.active ▸ hactive, fun p => ?_, h.ext.frameOf hframe⟩
      rw [hown]
      rcases h.ext.own p with heq | ⟨hfree, i, hi⟩
      · rw [heq]
      · rw [hi, hfree]
        exact congrArg some (if_pos rfl)

/-- The entries of a directory for kernel memory. -/
def kernelTables : Finset Index := Finset.univ.filter fun i => 512 ≤ i.val ∧ i.val < 568 ∨ 1016 ≤ i.val

theorem card_kernelTables : kernelTables.card = 64 := by decide +kernel

/-- A directory with page tables for the kernel alone has none for the user, and none between memory and the devices. -/
theorem entry_eq_none {i : Index} (h : tables s d = kernelTables) (hi : i.val < 512 ∨ 568 ≤ i.val ∧ i.val < 1016) :
    entry s d i = none := by
  by_contra hne
  obtain ⟨t, ht⟩ := Option.ne_none_iff_exists'.mp hne
  have hmem := mem_tables.mpr ⟨t, ht⟩
  rw [h, kernelTables, Finset.mem_filter] at hmem
  omega

theorem Kmap.size_eq {k : Kmap} (hstart : k.physStart ≤ k.physEnd) (hend : k.physEnd < 2 ^ 32) :
    k.size = k.physEnd - k.physStart := by
  rw [Kmap.size, BitVec.toNat_sub, BitVec.toNat_ofNat, BitVec.toNat_ofNat]
  omega

/-- The entries of `kmap` follow one another, in pages. -/
theorem kmap_pages (y : Layout) : ∃ k₁ k₂ k₃ k₄, kmap y = [k₁, k₂, k₃, k₄] ∧
    (k₁.Aligned ∧ k₁.first = 524288 ∧ k₁.pages = 256) ∧
    (k₂.Aligned ∧ k₂.first = 524544 ∧ k₂.pages = y.dataPage - 256) ∧
    (k₃.Aligned ∧ k₃.first = 524288 + y.dataPage ∧ k₃.pages = 57344 - y.dataPage) ∧
    k₄.Aligned ∧ k₄.first = 1040384 ∧ k₄.pages = 8192 := by
  have htext := y.text
  have hdata := y.data
  have hram := y.ram
  refine ⟨_, _, _, _, rfl, ?_, ?_, ?_, ?_⟩
  · exact ⟨⟨by decide, by decide, by decide, by decide, by decide⟩, by decide, by decide⟩
  · have hsize : (⟨KERNBASE + EXTMEM, EXTMEM, y.data', 0⟩ : Kmap).size = y.data' - EXTMEM := by
      apply Kmap.size_eq <;> simp only [Layout.data', EXTMEM, PHYSTOP, PGSIZE] at * <;> omega
    simp only [EXTMEM, PHYSTOP, PGSIZE, Layout.data', KERNBASE] at *
    refine ⟨⟨?_, ?_, ?_, ?_, ?_⟩, ?_, ?_⟩ <;> simp only [Kmap.first, Kmap.pages, hsize, PGSIZE, KERNBASE] <;> omega
  · have hsize : (⟨KERNBASE + y.data', y.data', PHYSTOP, PTE_W⟩ : Kmap).size = PHYSTOP - y.data' := by
      apply Kmap.size_eq <;> simp only [Layout.data', EXTMEM, PHYSTOP, PGSIZE] at * <;> omega
    simp only [EXTMEM, PHYSTOP, PGSIZE, Layout.data', KERNBASE] at *
    refine ⟨⟨?_, ?_, ?_, ?_, ?_⟩, ?_, ?_⟩ <;> simp only [Kmap.first, Kmap.pages, hsize, PGSIZE, KERNBASE] <;> omega
  · exact ⟨⟨by decide, by decide, by decide, by decide, by decide⟩, by decide, by decide⟩

theorem dataPage_bounds (y : Layout) : 256 < y.dataPage ∧ y.dataPage < 57344 := by
  have htext := y.text
  have hdata := y.data
  have hram := y.ram
  simp only [EXTMEM, PHYSTOP, PGSIZE] at *
  omega

theorem kmap_ascending (y : Layout) : Ascending (2 ^ 19) (kmap y) := by
  have hdata := dataPage_bounds y
  obtain ⟨k₁, k₂, k₃, k₄, heq, ⟨ha₁, hf₁, hp₁⟩, ⟨ha₂, hf₂, hp₂⟩, ⟨ha₃, hf₃, hp₃⟩, ha₄, hf₄, hp₄⟩ := kmap_pages y
  rw [heq]
  exact ⟨ha₁, by omega, ha₂, by omega, ha₃, by omega, ha₄, by omega, trivial⟩

theorem kmap_covers (y : Layout) (i : Index) : (∃ k ∈ kmap y, Covered k.first k.pages i) ↔ i ∈ kernelTables := by
  have hdata := dataPage_bounds y
  have hi := i.isLt
  obtain ⟨k₁, k₂, k₃, k₄, heq, ⟨-, hf₁, hp₁⟩, ⟨-, hf₂, hp₂⟩, ⟨-, hf₃, hp₃⟩, -, hf₄, hp₄⟩ := kmap_pages y
  rw [heq, kernelTables, Finset.mem_filter]
  simp only [exists_mem_cons_iff, not_mem_nil, false_and, exists_false, or_false, Finset.mem_univ, true_and,
    Covered, hf₁, hp₁, hf₂, hp₂, hf₃, hp₃, hf₄, hp₄]
  constructor
  · rintro (⟨b, hb, hb', hbi⟩ | ⟨b, hb, hb', hbi⟩ | ⟨b, hb, hb', hbi⟩ | ⟨b, hb, hb', hbi⟩) <;> omega
  · rintro (⟨hlo, hhi⟩ | hlo)
    · -- The last page of the table is in the third entry of `kmap`, unless the kernel's text reaches so far.
      by_cases hb : i.val * 1024 + 1023 < 524288 + y.dataPage
      · exact .inr (.inl ⟨i.val * 1024 + 1023, by omega, by omega, by omega⟩)
      · exact .inr (.inr (.inl ⟨i.val * 1024 + 1023, by omega, by omega, by omega⟩))
    · exact .inr (.inr (.inr ⟨i.val * 1024, by omega, by omega, by omega⟩))

theorem setupkvm_wp (hs : Books y s g) :
    wp (setupkvm y) (fun r s' => ∃ g', Books y s' g' ∧
      match r with
      | some d => g.own d = some .free ∧ g'.kept = update g.kept d (some .dir) ∧
          g'.active = (g.found d).active ∧ Gets (fun p o => o.Of d p) g g' ∧ tables s' d = kernelTables ∧
          g'.free.length + 65 = g.free.length ∧ (∀ b, pte s' d b = kernelPte (kmap y) b) ∧
            Frame (fun p o => o.Of d p) s g s'
      | none => g.free.length < 65 ∧ g'.kept = g.kept ∧ g'.active = g.active ∧ g'.own = g.own ∧
          Frame (fun _ _ => False) s g s') E s := by
  rw [setupkvm, wp_bind]
  refine kalloc_rule hs (fun hfree => ⟨g, hs, by simp [hfree], rfl, rfl, rfl, .refl⟩) fun d rest hfree hpop => ?_
  have hd := own_head hs hfree
  have hzero := hpop.fill_held Ghost.take_own zeroPage
  have hentry : ∀ i, entry ((popped s d).fill d zeroPage) d i = none := by
    intro i
    rw [entry_fill_self]
    exact entryOf_zero
  have hfound := hzero.found Ghost.take_own hentry
  have hlength : ((g.take d).found d).free.length + 1 = g.free.length := by
    show g.free.tail.length + 1 = _
    rw [hfree]
    rfl
  have htables : tables ((popped s d).fill d zeroPage) d = ∅ := by
    ext i
    simp [mem_tables, hentry]
  have hgets : Gets (fun p o => o.Of d p) g ((g.take d).found d) := by
    intro p
    show update (update g.own d _) d (some (.kept .dir)) p = _ ∨ _ ∧ ∃ o, _
    by_cases hp : p = d
    · subst hp
      exact .inr ⟨hd, _, update_self .., rfl⟩
    · rw [update_idem, update_of_ne hp]
      exact .inl rfl
  have hold : ∀ i, ¬g.active d i := by
    intro i h
    cases hd.symm.trans (hs.own_dir h)
  have hnopte : ∀ b, pte ((popped s d).fill d zeroPage) d b = 0 := by
    intro b
    rw [pte, hentry]
  have hfirst : Frame (fun _ _ => False) s g ((popped s d).fill d zeroPage) := .popped hd
  -- What belongs to others belongs to nobody that could be `d`.
  have hsafe : ∀ p, Safe (fun _ _ => False) g p → Safe (fun p o => o.Of d p) ((g.take d).found d) p := by
    intro p hp o ho
    have hne := hp.ne hd (.inl rfl)
    have hsame : ((g.take d).found d).own p = g.own p := by
      show update (update g.own d _) d _ p = _
      rw [update_idem, update_of_ne hne]
    rw [hsame] at ho
    exact ⟨(hp o ho).1, not_of hs (by rw [hd]; nofun) ho⟩
  rw [wp_bind, wp_setPage, if_neg (by decide)]
  refine wp_imp (setupLoop_wp (T := kernelTables) hfound (fun i => .inl rfl) (kmap_ascending y) ?_ ?_ ?_)
    fun r s' ⟨g', hs', hr⟩ => ⟨g', hs', ?_⟩
  · intro b _
    exact hnopte b
  · rw [htables]
    exact Finset.empty_subset _
  · exact fun k hk i hi => (kmap_covers y i).mp ⟨k, hk, hi⟩
  · rw [htables] at hr
    cases r with
    | some d' =>
      obtain ⟨rfl, hext, htab, hpte⟩ := hr
      have htab' : tables s' d' = kernelTables := by
        ext i
        rw [htab, ← kmap_covers y]
        simp
      have hcount := hext.count
      rw [htables, htab', card_kernelTables, Finset.card_empty] at hcount
      refine ⟨hd, ?_, hext.active, hgets.trans (fun _ => id) ((hext.gets 0 0).mono fun _ _ => Owner.New.of),
        htab', by omega, fun b => ?_, ?_⟩
      · rw [hext.kept]
        exact update_idem ..
      · rw [hpte]
        split
        · rfl
        · next hb => rw [hnopte, kernelPte_of_lt (kmap_ascending y) (by omega)]
      · exact (hfirst.trans hsafe (hext.frameOf .refl)).mono fun _ _ => False.elim
    | none =>
      obtain ⟨hcount, hkept, hactive, hown', hframe⟩ := hr
      rw [card_kernelTables, Finset.card_empty] at hcount
      refine ⟨by omega, ?_, ?_, ?_, hfirst.trans hsafe hframe⟩
      · rw [hkept]
        show update (update (update g.kept d _) d _) d none = g.kept
        rw [update_idem, update_idem, update_eq_self_iff, kept_none hs hd nofun]
      · funext d' i
        refine propext ((hactive d' i).trans ⟨fun h => h.1.resolve_left h.2, fun h => ⟨.inr h, ?_⟩⟩)
        rintro rfl
        exact hold i h
      · funext p
        rw [hown']
        exact reclaim_gets hs (by rw [hd]; nofun) hgets p

end Xv6.Vm
