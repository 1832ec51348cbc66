import Xv6.Exec
import Xv6.VmRange

/- The memory that `exec` makes from a program file (exec.c, up to the arguments).

   All that `exec` stores to before it commits are pages that were free: they belong to the directory that it has made
   (`Owned`), and `freevm` gives them back. While the memory is filled, every page below its size is mapped, none is
   above it, and the kernel's half of the directory is that of `setupkvm` (`Building`, `Loading`).

   1. A store to user memory keeps all that, so the bytes of the file may be any; and so may the sizes and addresses in
      the program headers, for `allocuvm` maps all pages up to the end of a segment before `loaduvm` looks for them.
   2. Where the bytes of the file go is said by a load phase that fails when `loaduvm` has stored to anything but a
      fresh page of the user (`loadImageWith`, `watched`): it is the same as the load phase.
   3. `load_phase_safe`: from any state of the allocator and for any file, no panic is reached.

   Correspondence (C ↔ Lean):
     `exec` from the loop over the program headers to `clearpteu` ↔ `loadImage` -/
namespace Xv6.Vm
open Bits Command Transition
open BitVec (ofNat)

variable {y : Layout} {ip : Inode} {s s' s₀ : Kernel} {g g' g₀ : Ghost} {p t d cur : Ppn} {sz : Nat} {E : Stop → Prop}

/-! ## The load phase -/

/-- The segments, and two pages behind them; the first of these is not the user's. -/
def loadImageWith (y : Layout) (ip : Inode) (load : Word → Word → Nat → Nat → M (Option Nat)) (pgdir : Ppn)
    (elf : Elfhdr) :
    M (Option Nat) := do
  match ← loadSegments y ip load pgdir elf.phnum.toNat elf.phoff 0 1 with
  | none => pure none
  | some sz => do
    let sz ← allocuvm y pgdir (roundup sz * PGSIZE) ((roundup sz + 2) * PGSIZE)
    if sz = 0 then pure none
    else do
      clearpteu pgdir (ofNat 20 (sz / PGSIZE - 2))
      pure (some sz)

def loadImage (y : Layout) (ip : Inode) (pgdir : Ppn) (elf : Elfhdr) : M (Option Nat) :=
  loadImageWith y ip (loaduvm ip pgdir) pgdir elf

theorem loadSegments_within {load load' : Word → Word → Nat → Nat → M (Option Nat)} {n k : Nat} {off : Word}
    (h : ∀ va offset n k, Within (load va offset n k) (load' va offset n k)) :
    Within (loadSegments y ip load d n off sz k) (loadSegments y ip load' d n off sz k) := by
  induction n generalizing off sz k with
  | zero => exact .refl
  | succ n ih =>
    rw [loadSegments, loadSegments]
    cases readi ip k off Proghdr.size with
    | none => exact .refl
    | some bs =>
      refine .ite .refl (.ite ih (.ite .refl
        (.ite .refl (.bind .refl fun r => .ite .refl (.ite .refl (.bind (h _ _ _ _) fun r => ?_))))))
      cases r with
      | none => exact .refl
      | some k => exact ih

theorem loadImageWith_within {load load' : Word → Word → Nat → Nat → M (Option Nat)} {elf : Elfhdr}
    (h : ∀ va offset n k, Within (load va offset n k) (load' va offset n k)) :
    Within (loadImageWith y ip load d elf) (loadImageWith y ip load' d elf) :=
  .bind (loadSegments_within h) fun _ => .refl

/-! ## The directory that is made -/

/-- Stores have been to what directory `d` has, and to nothing else. -/
structure Owned (y : Layout) (d : Ppn) (s₀ : Kernel) (g₀ : Ghost) (s : Kernel) (g : Ghost) : Prop where
  books : Books y s g
  active : ∀ i, g.active d i
  safe : ∀ p, Safe (fun p o => o.Of d p) g₀ p → Safe (fun p o => o.Of d p) g p
  frame : Frame (fun p o => o.Of d p) s₀ g₀ s

/-- And it maps the pages below `sz`, and the kernel. -/
structure Building (y : Layout) (d : Ppn) (s₀ : Kernel) (g₀ : Ghost) (sz : Nat) (s : Kernel) (g : Ghost) : Prop
    extends Owned y d s₀ g₀ s g where
  top : sz ≤ KERNBASE
  full : Populated g d 0 (below sz)
  kernel : ∀ b : Vpn, 2 ^ 19 ≤ b.toNat → pte s d b = kernelPte (kmap y) b
  /-- There are no page tables between memory and the devices. -/
  hole : ∀ i : Index, 568 ≤ i.val → i.val < 1016 → entry s d i = none

theorem Owned.freevm (h : Owned y d s₀ g₀ s g) :
    wp (freevm y d) (fun _ s' => Frame (fun p o => o.Of d p) s₀ g₀ s') E s :=
  wp_imp (freevm_wp h.books h.active) fun _ _ ⟨_, _, _, _, _, hframe⟩ => h.frame.trans h.safe hframe

theorem Building.page (h : Building y d s₀ g₀ sz s g) {a : Vpn} (ha : a.toNat < below sz) :
    ∃ t, entry s d (pdx a) = some t ∧ present (s.mem t (ptx a)) = true ∧
      g.own (addr (s.mem t (ptx a))) = some (.user d (pdx a) (ptx a)) := by
  have hlt : a.toNat < 2 ^ 19 := by
    have := h.top
    simp only [below, PGSIZE, KERNBASE] at *
    omega
  obtain ⟨p, i, j, hp, hij⟩ := h.full a.toNat (Nat.zero_le _) ha
  have htrans := translate_of_own h.books hp hij
  have hown := own_of_translate h.books (h.active _) hlt htrans
  obtain ⟨t, ht, hentry⟩ := Option.bind_eq_some_iff.mp htrans
  obtain ⟨hpresent, rfl⟩ := entryOf_eq_some.mp hentry
  exact ⟨t, ht, hpresent, hown⟩

theorem mem_fill_of_ne {q : Ppn} {x : Page} (h : q ≠ p) : (s.fill p x).mem q = s.mem q :=
  Function.update_of_ne h ..

theorem Building.fill {i j : Index} (h : Building y d s₀ g₀ sz s g) (hp : g.own p = some (.user d i j)) (x : Page) :
    Building y d s₀ g₀ sz (s.fill p x) g where
  books := h.books.fill (h.books.not_free hp nofun) (by rw [hp]; nofun) (by rw [hp]; nofun) x
  active := h.active
  safe := h.safe
  frame := h.frame.trans h.safe (Frame.fill .refl hp (.inr rfl))
  top := h.top
  full := h.full
  kernel b hb := (pte_fill_of_ne h.books h.active (by rw [hp]; nofun) (by rw [hp]; nofun) b).trans (h.kernel b hb)
  hole i hlo hhi := by
    rw [entry_fill_of_ne]
    · exact h.hole i hlo hhi
    · rintro rfl
      cases hp.symm.trans (h.books.own_dir (h.active 0))

theorem books_poke_flags {i j : Index} {w : Word} (hs : Books y s g) (hact : g.active d i) (ht : entry s d i = some t)
    (hw : entryOf w = entry s t j) : Books y (s.poke t j w) g := by
  have hentry : ∀ q k, entry (s.poke t j w) q k = entry s q k := by
    intro q k
    by_cases h : q = t ∧ k = j
    · rw [h.1, h.2, entry_poke_self, hw]
    · exact entry_poke_of_ne h
  have hsame : Books.SameTables s (s.poke t j w) g := fun d' i' _ => ⟨hentry d' i', fun t' _ k => hentry t' k⟩
  refine ⟨hs.chain_poke (hs.not_free (hs.own_table hact ht) nofun), fun q o => ?_, hs.ram, hs.dir⟩
  rw [hs.owner]
  cases o with
  | free => exact Iff.rfl
  | kept u => exact Iff.rfl
  | table d' i' => exact (hsame.table_iff q).symm
  | user d' i' j' => exact (hsame.user_iff q).symm

theorem getLsbD_PTE_U {k : Nat} (hk : k ≠ 2) : PTE_U.getLsbD k = false := by
  rw [show PTE_U = BitVec.twoPow 32 2 from rfl, BitVec.getLsbD_twoPow]
  simp [Ne.symm hk]

theorem entryOf_clear (w : Word) : entryOf (w &&& ~~~PTE_U) = entryOf w := by
  have hbit : ∀ k, k < 32 → k ≠ 2 → (w &&& ~~~PTE_U).getLsbD k = w.getLsbD k := by
    intro k hlt hk
    rw [BitVec.getLsbD_and, BitVec.getLsbD_not, getLsbD_PTE_U hk]
    simp [hlt]
  have hpresent : present (w &&& ~~~PTE_U) = present w := hbit 0 (by decide) (by decide)
  have haddr : addr (w &&& ~~~PTE_U) = addr w := by
    apply BitVec.eq_of_getLsbD_eq
    intro i hi
    rw [addr, addr, BitVec.getLsbD_extractLsb', BitVec.getLsbD_extractLsb', hbit (12 + i) (by omega) (by omega)]
  rw [entryOf, entryOf, hpresent, haddr]

theorem Building.lt (h : Building y d s₀ g₀ sz s g) {a : Vpn} (ha : a.toNat < below sz) : a.toNat < 2 ^ 19 :=
  ha.trans_le (below_le h.top)

theorem Building.le_phystop (h : Building y d s₀ g₀ sz s g) : sz ≤ PHYSTOP := by
  have hle := populated_le h.books h.full
  simp only [below, PHYSTOP, PGSIZE] at *
  omega

/-! ## The invariant of the load -/

/-- Nothing is mapped above `sz`, and the pages below are the user's. -/
structure Loading (y : Layout) (d : Ppn) (s₀ : Kernel) (g₀ : Ghost) (sz : Nat) (s : Kernel) (g : Ghost) : Prop
    extends Building y d s₀ g₀ sz s g where
  user : ∀ a : Vpn, a.toNat < below sz → ∃ p, pte s d a = mkPte p PTE_WU
  clear : ∀ a : Vpn, below sz ≤ a.toNat → a.toNat < 2 ^ 19 → pte s d a = 0
  others : ∀ d' i, g₀.active d' i → g.active d' i

theorem Loading.fill {i j : Index} (h : Loading y d s₀ g₀ sz s g) (hp : g.own p = some (.user d i j)) (x : Page) :
    Loading y d s₀ g₀ sz (s.fill p x) g := by
  have hpte : ∀ a, pte (s.fill p x) d a = pte s d a :=
    pte_fill_of_ne h.books h.active (by rw [hp]; nofun) (by rw [hp]; nofun)
  refine ⟨h.toBuilding.fill hp x, fun a ha => ?_, fun a ha hlt => ?_, h.others⟩
  · rw [hpte]
    exact h.user a ha
  · rw [hpte]
    exact h.clear a ha hlt

theorem Growing.owned {lo hi : Nat} (h : Owned y d s₀ g₀ s g) (hg : Growing y d lo hi s g s' g') :
    Owned y d s₀ g₀ s' g' where
  books := hg.books
  active i := hg.active ▸ h.active i
  safe p hp := hg.safe (h.safe p hp)
  frame := h.frame.trans h.safe (hg.frame.mono fun _ _ => Owner.Paging.of)

theorem Undone.owned {lo hi : Nat} (h : Owned y d s₀ g₀ s g) (hu : Undone y d lo hi s g s' g') :
    Owned y d s₀ g₀ s' g' where
  books := hu.books
  active i := hu.active ▸ h.active i
  safe p hp := by
    have hsafe := h.safe p hp
    refine hsafe.congr ((hu.own p).imp (fun heq => ?_) And.left)
    rw [heq, hsafe.release]
  frame := h.frame.trans h.safe (hu.frame.mono fun _ _ ho => ho.elim Owner.Paging.of Owner.New.of)

theorem Loading.grown {newsz : Nat} (h : Loading y d s₀ g₀ sz s g) (hle : sz ≤ newsz) (hnew : newsz < KERNBASE)
    (hg : Growing y d (below sz) (below newsz) s g s' g') : Loading y d s₀ g₀ newsz s' g' := by
  have hmono := below_mono hle
  have htop : below newsz ≤ 2 ^ 19 := below_le hnew.le
  refine ⟨⟨hg.owned h.toOwned, hnew.le, fun v hlo hhi => ?_, fun b hb => ?_, fun i hlo hhi => ?_⟩, fun a ha => ?_,
    fun a ha hlt => ?_, fun d' i hi => ?_⟩
  · by_cases hv : v < below sz
    · exact h.full.gets hg.gets v hlo hv
    · exact hg.populated h.active htop v (by omega) hhi
  · rw [hg.outside b (by omega)]
    exact h.kernel b hb
  · by_contra hne
    obtain ⟨t, ht⟩ := Option.ne_none_iff_exists'.mp hne
    obtain ⟨t₀, ht₀⟩ := mem_tables.mp (hg.upper i (by omega) (mem_tables.mpr ⟨t, ht⟩))
    rw [h.hole i hlo hhi] at ht₀
    cases ht₀
  · by_cases hin : below sz ≤ a.toNat
    · obtain ⟨p, hp, -, -⟩ := hg.inside a hin ha
      exact ⟨p, hp⟩
    · rw [hg.outside a (by omega)]
      exact h.user a (by omega)
  · rw [hg.outside a (.inr ha)]
    exact h.clear a (by omega) hlt
  · rw [hg.active]
    exact h.others d' i hi

theorem Loading.allocuvm {newsz : Nat} (h : Loading y d s₀ g₀ sz s g) :
    wp (allocuvm y d sz newsz) (fun r s' => ∃ g', Owned y d s₀ g₀ s' g' ∧
      (r ≠ 0 → r = max sz newsz ∧ r < KERNBASE ∧ Loading y d s₀ g₀ r s' g')) E s := by
  by_cases hnew : KERNBASE ≤ newsz
  · rw [Vm.allocuvm, if_pos hnew]
    exact ⟨g, h.toOwned, fun hne => absurd rfl hne⟩
  have hround := roundup_eq_below h.top
  have hlt : below newsz ≤ 2 ^ 19 := below_le (by omega)
  refine wp_imp (allocuvm_exact h.books h.active (.inl fun b hb hb' => ?_)) fun r s' hr => ?_
  · rw [translate_eq_entryOf, h.clear b (by omega) (by omega)]
    exact entryOf_zero
  · cases hr with
    | tooBig hbig => exact absurd hbig hnew
    | smaller _ hle =>
      have hphys := h.le_phystop
      simp only [PHYSTOP, KERNBASE] at *
      exact ⟨g, h.toOwned, fun _ => ⟨by omega, by omega, h⟩⟩
    | @done _ g' hsmall hle hgrown =>
      rw [hround] at hgrown
      exact ⟨g', hgrown.owned h.toOwned, fun _ => ⟨by omega, hsmall, h.grown hle hsmall hgrown⟩⟩
    | @noPage _ g' _ _ hundone => exact ⟨g', hundone.owned h.toOwned, fun hne => absurd rfl hne⟩

/-- What the stores to the pages below `top` keep, `loaduvm` keeps. -/
theorem loadLoop_rule {I : Kernel → Prop} {top n left k : Nat} {a : Vpn} {offset : Word} (htop : top ≤ 2 ^ 19)
    (hI : ∀ s (a : Vpn), I s → a.toNat < top → ∃ t, entry s d (pdx a) = some t ∧
      ∀ x, I (s.fill (addr (s.mem t (ptx a))) x))
    (ha : a.toNat + n ≤ top) (hs : I s) : wp (loadLoop ip d n a offset left k) (fun _ s' => I s') E s := by
  induction n generalizing a offset left k s with
  | zero => exact hs
  | succ n ih =>
    obtain ⟨t, ht, hfill⟩ := hI s a hs (by omega)
    have hnext : (a + 1).toNat = a.toNat + 1 := by
      rw [BitVec.toNat_add]
      exact Nat.mod_eq_of_lt (by show a.toNat + 1 < 2 ^ 20; omega)
    rw [loadLoop, wp_bind, walkpgdir_false, ht]
    show wp (gets _ >>= _) _ E s
    rw [wp_bind, wp_gets]
    cases readi ip k offset (min left PGSIZE) with
    | none => exact hs
    | some bs =>
      show wp (gets _ >>= _) _ E s
      rw [wp_bind, wp_gets, wp_bind, wp_setPage, wp_ite]
      exact ⟨fun _ => ih (by omega) (hfill _), fun _ => hfill _⟩

/-- The stores of a `loaduvm`: to pages that were free in `s₀` and are the user's in directory `d`. -/
def StoresFresh (s₀ : Kernel) (d : Ppn) (s s' : Kernel) : Prop :=
  s'.freelist = s.freelist ∧
    ∀ p, s'.mem p ≠ s.mem p → p ∈ freePages s₀ ∧ ∃ a : Vpn, a.toNat < 2 ^ 19 ∧ translate s d a = some p

/-- `loaduvm`, which fails if it has stored to something else. -/
noncomputable def watched (ip : Inode) (s₀ : Kernel) (pgdir : Ppn) (va offset : Word) (sz k : Nat) : M (Option Nat) :=
  watch (StoresFresh s₀ pgdir) .trap (loaduvm ip pgdir va offset sz k)

theorem Owned.fresh {o : Owner} (h : Owned y d s₀ g₀ s g) (hs : Books y s₀ g₀) (hd : g₀.own d = some .free)
    (hp : g.own p = some o) (ho : o.Of d p) : g₀.own p = some .free := by
  by_contra hne
  refine (h.safe p (fun o' ho' => ⟨?_, not_of hs (by rw [hd]; nofun) ho'⟩) o hp).2 ho
  rintro rfl
  exact hne ho'

theorem storesFresh_of_own (h : Loading y d s₀ g₀ sz s g) (hs : Books y s₀ g₀) (hd : g₀.own d = some .free)
    (hlist : s'.freelist = s.freelist) (hmem : ∀ p, s'.mem p ≠ s.mem p → ∃ i j, g.own p = some (.user d i j)) :
    StoresFresh s₀ d s s' := by
  refine ⟨hlist, fun p hp => ?_⟩
  obtain ⟨i, j, hown⟩ := hmem p hp
  have hi : i.val < 512 := ((h.books.owner p _).mp hown).2.1
  have hj := j.isLt
  have hnat : (ofNat 20 (vpn i j)).toNat = vpn i j := toNat_ofNat_vpn (by rw [vpn]; omega)
  refine ⟨(mem_freePages hs).mpr (h.fresh hs hd hown rfl), ofNat 20 (vpn i j), ?_,
    translate_of_own h.books hown hnat.symm⟩
  rw [hnat, vpn]
  omega

theorem Loading.loaduvm (ip : Inode) {va offset : Word} {n k : Nat} (h : Loading y d s₀ g₀ sz s g)
    (halign : va.toNat % PGSIZE = 0) (hn : va.toNat + n ≤ sz) :
    wp (loaduvm ip d va offset n k) (fun _ s' => (s'.freelist = s.freelist ∧ ∀ p, s'.mem p ≠ s.mem p →
      ∃ i j, g.own p = some (.user d i j)) ∧
      Loading y d s₀ g₀ sz s' g) E s := by
  have hpage : (va.extractLsb' 12 20).toNat = va.toNat / 4096 := by
    have := va.isLt
    rw [BitVec.extractLsb'_toNat, Nat.shiftRight_eq_div_pow]
    omega
  rw [Vm.loaduvm, if_neg (by omega)]
  refine loadLoop_rule (below_le h.top) (fun s' a ⟨⟨hlist, hmem⟩, h⟩ ha => ?_) ?_ ⟨⟨rfl, fun p hp => absurd rfl hp⟩, h⟩
  · obtain ⟨t, ht, -, hown⟩ := h.page ha
    refine ⟨t, ht, fun x => ⟨⟨hlist, fun p hp => ?_⟩, h.fill hown x⟩⟩
    by_cases heq : p = addr (s'.mem t (ptx a))
    · exact ⟨_, _, heq ▸ hown⟩
    · refine hmem p ?_
      rwa [mem_fill_of_ne heq] at hp
  · rw [hpage]
    simp only [below, PGSIZE] at *
    omega

/-- A command for `loaduvm` that keeps what is known of the new directory. -/
def KeepsLoading (y : Layout) (d : Ppn) (s₀ : Kernel) (g₀ : Ghost) (E : Stop → Prop)
    (load : Word → Word → Nat → Nat → M (Option Nat)) :
    Prop :=
  ∀ s g sz, Loading y d s₀ g₀ sz s g → ∀ va offset n k, va.toNat % PGSIZE = 0 → va.toNat + n ≤ sz →
    wp (load va offset n k) (fun _ s' => Loading y d s₀ g₀ sz s' g) E s

theorem loaduvm_keeps : KeepsLoading y d s₀ g₀ E (loaduvm ip d) :=
  fun _ _ _ h _ _ _ _ halign hn => wp_imp (h.loaduvm ip halign hn) fun _ _ => And.right

theorem watched_keeps (hs : Books y s₀ g₀) (hd : g₀.own d = some .free) :
    KeepsLoading y d s₀ g₀ E (watched ip s₀ d) := by
  intro s g sz h va offset n k halign hn
  refine wp_watch (wp_imp (h.loaduvm ip halign hn) fun _ s' ⟨⟨hlist, hmem⟩, h'⟩ => ⟨?_, h'⟩)
  exact storesFresh_of_own h hs hd hlist hmem

theorem Loading.loadSegments {load : Word → Word → Nat → Nat → M (Option Nat)} {n k : Nat} {off : Word}
    (hload : KeepsLoading y d s₀ g₀ E load) (h : Loading y d s₀ g₀ sz s g) :
    wp (loadSegments y ip load d n off sz k) (fun r s' => ∃ g', Owned y d s₀ g₀ s' g' ∧
      ∀ sz', r = some sz' → Loading y d s₀ g₀ sz' s' g') E s := by
  induction n generalizing off sz k s g with
  | zero =>
    refine ⟨g, h.toOwned, fun sz' heq => ?_⟩
    cases heq
    exact h
  | succ n ih =>
    have hstop : ∃ g', Owned y d s₀ g₀ s g' ∧ ∀ sz', (none : Option Nat) = some sz' → Loading y d s₀ g₀ sz' s g' :=
      ⟨g, h.toOwned, nofun⟩
    rw [loadSegments]
    cases readi ip k off Proghdr.size with
    | none => exact hstop
    | some bs =>
      dsimp only
      rw [wp_ite, wp_ite, wp_ite, wp_ite]
      refine ⟨fun _ => hstop, fun _ => ⟨fun _ => ih h,
        fun _ => ⟨fun _ => hstop, fun hsize => ⟨fun _ => hstop, fun hwrap => ?_⟩⟩⟩⟩
      rw [wp_bind]
      refine wp_imp h.allocuvm fun r s₁ ⟨g₁, howned, hr⟩ => ?_
      rw [wp_ite, wp_ite]
      refine ⟨fun _ => ⟨g₁, howned, nofun⟩, fun hne => ⟨fun _ => ⟨g₁, howned, nofun⟩, fun halign => ?_⟩⟩
      obtain ⟨hmax, -, h₁⟩ := hr hne
      rw [wp_bind]
      refine wp_imp (hload _ _ _ h₁ _ _ _ _ (by omega) ?_) fun r s₂ h₂ => ?_
      · generalize Proghdr.ofBytes bs = ph at *
        have hend : (ph.vaddr + ph.memsz).toNat = ph.vaddr.toNat + ph.memsz.toNat := by bv_omega
        have hfile : ph.filesz.toNat ≤ ph.memsz.toNat := by bv_omega
        omega
      · cases r with
        | none => exact ⟨g₁, h₂.toOwned, nofun⟩
        | some k => exact ih h₂

/-! ## The stack pages -/

def fromTop (sz k : Nat) : Vpn := ofNat 20 (sz / PGSIZE - k)

/-- The memory before the arguments: two pages have been put on top, and the lower one is not the user's. -/
structure Loaded (y : Layout) (d : Ppn) (s₀ : Kernel) (g₀ : Ghost) (sz : Nat) (s : Kernel) (g : Ghost) : Prop
    extends Building y d s₀ g₀ sz s g where
  aligned : sz % PGSIZE = 0
  two : 2 * PGSIZE ≤ sz
  guard : pte s d (fromTop sz 2) &&& PTE_U = 0
  user : ∀ a : Vpn, a.toNat < below sz → a ≠ fromTop sz 2 → ∃ p, pte s d a = mkPte p PTE_WU
  clear : ∀ a : Vpn, below sz ≤ a.toNat → a.toNat < 2 ^ 19 → pte s d a = 0
  others : ∀ d' i, g₀.active d' i → g.active d' i

theorem fromTop_toNat {k : Nat} (h : sz ≤ KERNBASE) : (fromTop sz k).toNat = sz / PGSIZE - k := by
  refine toNat_ofNat_vpn ?_
  simp only [PGSIZE, KERNBASE] at *
  omega

theorem wp_clearpteu {Q : Unit → Kernel → Prop} {a : Vpn} (ht : entry s d (pdx a) = some t) :
    wp (clearpteu d a) Q E s ↔ Q () (s.poke t (ptx a) (s.mem t (ptx a) &&& ~~~PTE_U)) := by
  rw [clearpteu, wp_bind, walkpgdir_false, ht]
  rfl

theorem Loading.clearpteu (h : Loading y d s₀ g₀ sz s g) (halign : sz % PGSIZE = 0) (htwo : 2 * PGSIZE ≤ sz) :
    wp (clearpteu d (fromTop sz 2)) (fun _ s' => Loaded y d s₀ g₀ sz s' g) E s := by
  have hnat := fromTop_toNat (k := 2) h.top
  have ha : (fromTop sz 2).toNat < below sz := by
    simp only [below, PGSIZE] at *
    omega
  obtain ⟨t, ht, -, -⟩ := h.page ha
  have hentry : entryOf (s.mem t (ptx (fromTop sz 2)) &&& ~~~PTE_U) = entry s t (ptx (fromTop sz 2)) := entryOf_clear _
  have hpte := pte_poke (w := s.mem t (ptx (fromTop sz 2)) &&& ~~~PTE_U) h.books h.active ht
  have hother : ∀ b : Vpn, b ≠ fromTop sz 2 →
      pte (s.poke t (ptx (fromTop sz 2)) (s.mem t (ptx (fromTop sz 2)) &&& ~~~PTE_U)) d b = pte s d b := by
    intro b hb
    rw [hpte, if_neg hb]
  have hlt := h.lt ha
  rw [wp_clearpteu ht]
  refine ⟨⟨⟨books_poke_flags h.books (h.active _) ht hentry, h.active, h.safe, ?_⟩, h.top, h.full, fun b hb => ?_,
    fun i hlo hhi => ?_⟩, halign, htwo, ?_, fun a ha hne => ?_, fun a hle hlt => ?_, h.others⟩
  · exact h.frame.trans h.safe (Frame.poke .refl (h.books.own_table (h.active _) ht) (.inr rfl))
  · rw [hother b (by rintro rfl; omega)]
    exact h.kernel b hb
  · rw [entry_poke_of_ne]
    · exact h.hole i hlo hhi
    · rintro ⟨rfl, -⟩
      cases (h.books.own_table (h.active _) ht).symm.trans (h.books.own_dir (h.active 0))
  · rw [hpte, if_pos rfl, BitVec.and_assoc, BitVec.and_comm (~~~PTE_U), BitVec.and_not_self]
    exact BitVec.and_zero
  · rw [hother a hne]
    exact h.user a ha
  · rw [hother a (by rintro rfl; omega)]
    exact h.clear a hle hlt

theorem Loading.loadImage {load : Word → Word → Nat → Nat → M (Option Nat)} {elf : Elfhdr}
    (hload : KeepsLoading y d s₀ g₀ E load) (h : Loading y d s₀ g₀ 0 s g) :
    wp (loadImageWith y ip load d elf) (fun r s' => ∃ g', Owned y d s₀ g₀ s' g' ∧
      ∀ sz, r = some sz → sz < KERNBASE ∧ Loaded y d s₀ g₀ sz s' g') E s := by
  rw [loadImageWith, wp_bind]
  refine wp_imp (h.loadSegments hload) fun r s₁ h₁ => ?_
  obtain ⟨g₁, howned, hr⟩ := h₁
  cases r with
  | none => exact ⟨g₁, howned, by rintro _ ⟨⟩⟩
  | some sz =>
    have h₁ := hr sz rfl
    have hbelow : below (roundup sz * PGSIZE) = below sz ∧ roundup sz * PGSIZE ≤ KERNBASE := by
      have htop := h₁.top
      simp only [below, roundup, PGSIZE, KERNBASE] at *
      omega
    have hround : Loading y d s₀ g₀ (roundup sz * PGSIZE) s₁ g₁ :=
      ⟨⟨h₁.toOwned, hbelow.2, hbelow.1 ▸ h₁.full, h₁.kernel, h₁.hole⟩, hbelow.1 ▸ h₁.user, hbelow.1 ▸ h₁.clear,
        h₁.others⟩
    show wp (Vm.allocuvm y d _ _ >>= _) _ _ s₁
    rw [wp_bind]
    refine wp_imp hround.allocuvm fun r s₂ h₂ => ?_
    obtain ⟨g₂, howned₂, hr₂⟩ := h₂
    rw [wp_ite]
    refine ⟨fun _ => ⟨g₂, howned₂, by rintro _ ⟨⟩⟩, fun hne => ?_⟩
    obtain ⟨hmax, hsmall, h₂⟩ := hr₂ hne
    rw [wp_bind]
    refine wp_imp (h₂.clearpteu ?_ ?_) fun _ s₃ h₃ => ⟨g₂, h₃.toOwned, ?_⟩
    · simp only [PGSIZE] at *
      omega
    · simp only [PGSIZE] at *
      omega
    · rintro _ ⟨⟩
      exact ⟨hsmall, h₃⟩

/-! ## From `setupkvm` on -/

theorem loading_start (hs : Books y s g) :
    wp (setupkvm y) (fun r s₁ => ∃ g₁, Books y s₁ g₁ ∧
      match r with
      | some d => g.own d = some .free ∧ Loading y d s g 0 s₁ g₁
      | none => Frame (fun _ _ => False) s g s₁) E s := by
  refine wp_imp (setupkvm_wp hs) fun r s₁ ⟨g₁, hs₁, hr⟩ => ⟨g₁, hs₁, ?_⟩
  cases r with
  | none => exact hr.2.2.2.2
  | some d =>
    obtain ⟨hd, -, hact, hgets, htab, -, hpte, hframe⟩ := hr
    have howned : Owned y d s g s₁ g₁ :=
      ⟨hs₁, fun i => hact ▸ .inl rfl, fun p hp => hp.congr ((hgets p).imp_right And.left), hframe⟩
    refine ⟨hd, ⟨howned, by decide, fun v _ hv => absurd hv (Nat.not_lt_zero v), fun b _ => hpte b, fun i hlo hhi =>
      entry_eq_none htab (.inr ⟨hlo, hhi⟩)⟩, fun a ha => ?_, fun a _ ha => ?_, fun d' i hi => hact ▸ .inr hi⟩
    · exact absurd ha (Nat.not_lt_zero _)
    · rw [hpte, kernelPte_of_lt (kmap_ascending y) ha]

theorem Frame.unchanged (h : Frame (fun p o => o.Of d p) s₀ g₀ s) (hs : Books y s₀ g₀) (hd : g₀.own d = some .free)
    (hp : g₀.own p ≠ some .free) : s.mem p = s₀.mem p := by
  refine h p fun o ho => ⟨?_, not_of hs (by rw [hd]; nofun) ho⟩
  rintro rfl
  exact hp ho

/-- The entries of a directory for a program of size `sz`: fresh pages for the user up to `sz`, but for the page below
the stack, nothing above, and the kernel. -/
structure ImageEntries (y : Layout) (s₀ : Kernel) (d : Ppn) (sz : Nat) (s : Kernel) : Prop where
  present : ∀ a : Vpn, a.toNat * PGSIZE < sz → ∃ p ∈ freePages s₀, translate s d a = some p
  user : ∀ a : Vpn, a.toNat * PGSIZE < sz → a ≠ fromTop sz 2 → ∃ p, pte s d a = mkPte p PTE_WU
  guard : pte s d (fromTop sz 2) &&& PTE_U = 0
  clear : ∀ a : Vpn, sz ≤ a.toNat * PGSIZE → a.toNat < 2 ^ 19 → pte s d a = 0
  kernel : ∀ a : Vpn, 2 ^ 19 ≤ a.toNat → pte s d a = kernelPte (kmap y) a

theorem Loaded.entries (hs : Books y s₀ g₀) (hd : g₀.own d = some .free) (h : Loaded y d s₀ g₀ sz s g) :
    ImageEntries y s₀ d sz s := by
  have hin : ∀ a : Vpn, a.toNat * PGSIZE < sz ↔ a.toNat < below sz := by
    intro a
    simp only [below, PGSIZE]
    omega
  refine ⟨fun a ha => ?_, fun a ha => h.user a ((hin a).mp ha), h.guard, fun a ha => h.clear a ?_, h.kernel⟩
  · obtain ⟨t, ht, hpresent, hown⟩ := h.page ((hin a).mp ha)
    refine ⟨_, (mem_freePages hs).mpr (h.fresh hs hd hown rfl), ?_⟩
    rw [translate, ht]
    exact if_pos hpresent
  · rw [← not_lt, hin] at ha
    omega

/-- The load phase of `exec`, from any state of the allocator and for any file: no panic is reached, `loaduvm` stores
only to fresh pages of the user, all stores are to pages that were free, and on success the directory has fresh pages
up to the size, which is below `KERNBASE`. -/
theorem load_phase_safe {s : State} (hs : WellFormed y s) (ip : Inode) (elf : Elfhdr) :
    wp (setupkvm y) (fun r s₁ => ∀ d, r = some d →
      loadImageWith y ip (watched ip s.kernel d) d elf s₁ = loadImage y ip d elf s₁ ∧
        wp (loadImage y ip d elf) (fun r s₂ => (∀ p, p ∉ freePages s.kernel → s₂.mem p = s.kernel.mem p) ∧
          ∀ sz, r = some sz → sz < KERNBASE ∧ ImageEntries y s.kernel d sz s₂) (fun _ => False) s₁) (fun _ => False)
            s.kernel := by
  obtain ⟨g, ⟨hs, -⟩⟩ := hs
  refine wp_imp (loading_start hs) ?_
  rintro _ s₁ ⟨g₁, hs₁, hr⟩ d rfl
  obtain ⟨hd, hloading⟩ := hr
  have hwatch : wp (loadImageWith y ip (watched ip s.kernel d) d elf) (fun r s₂ =>
      (∀ p, p ∉ freePages s.kernel → s₂.mem p = s.kernel.mem p) ∧ ∀ sz, r = some sz → sz < KERNBASE ∧
        ImageEntries y s.kernel d sz s₂)
      (fun _ => False) s₁ := by
    refine wp_imp (hloading.loadImage (watched_keeps hs hd)) fun r s₂ ⟨g₂, howned, hr⟩ =>
      ⟨fun p hp => howned.frame.unchanged hs hd (mt (mem_freePages hs).mpr hp), fun sz hsz => ?_⟩
    obtain ⟨hsmall, hloaded⟩ := hr sz hsz
    exact ⟨hsmall, hloaded.entries hs hd⟩
  have hwithin : Within (loadImageWith y ip (watched ip s.kernel d) d elf) (loadImage y ip d elf) :=
    loadImageWith_within fun _ _ _ _ => watch_within
  exact ⟨hwithin.eq hwatch, hwithin.wp hwatch⟩

/-- A file with two segments that overlap, the second below the first. -/
def overlapping : Inode := fun k _ n =>
  let header :=
    fun (page : Byte) => le32 ELF_PROG_LOAD ++ le32 0 ++ [0, page, 0, 0] ++ le32 0 ++ le32 0x10 ++ le32 0x3000 ++
      le32 0 ++ le32 0
  some (if k = 1 then header 0x20 else if k = 3 then header 0x10 else List.replicate n.toNat 7)

theorem load_phase_safe_overlapping : ∃ s,
    run (step smallLayout) (start smallLayout fun _ => zeroPage) [.freerange 258 600] = some s ∧
    wp (setupkvm smallLayout) (fun r s₁ => ∀ d, r = some d →
      loadImageWith smallLayout overlapping (watched overlapping s.kernel d) d ⟨ELF_MAGIC, 0, 52, 2⟩ s₁ =
          loadImage smallLayout overlapping d ⟨ELF_MAGIC, 0, 52, 2⟩ s₁ ∧
        wp (loadImage smallLayout overlapping d ⟨ELF_MAGIC, 0, 52, 2⟩) (fun r s₂ =>
          (∀ p, p ∉ freePages s.kernel → s₂.mem p = s.kernel.mem p) ∧
            ∀ sz, r = some sz → sz < KERNBASE ∧ ImageEntries smallLayout s.kernel d sz s₂) (fun _ => False) s₁)
      (fun _ => False) s.kernel := by
  obtain ⟨s, g, hstep, h, -⟩ := boot (fun _ => zeroPage) (le_refl 258) (show 600 ≤ 57344 by decide)
  exact ⟨s, run_cons.mpr ⟨s, hstep, rfl⟩, load_phase_safe ⟨g, h⟩ _ _⟩

end Xv6.Vm
