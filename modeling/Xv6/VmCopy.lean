import Xv6.VmLeaks

/- The memory that `fork` copies.

   `copyuvm` makes a directory and maps a copy of each page of the parent's memory in it. `copyuvm_is_faithful`
   says what the new directory has: the parent's pages with their flags, the kernel's mappings, and nothing
   else; and that the parent has kept its own.

   The parent's directory may be any one whose pages are not free: nothing is assumed of other directories, of the
   flags of its entries, or that it maps no page twice. So the books (`Books`) are those with the free list
   alone (`freeOnly`). -/
namespace Xv6.Vm
open Function Bits Command LinkedQueue Transition
open BitVec (ofNat)

variable {y : Layout} {s s' : Kernel} {g g' : Ghost} {p t d pgdir : Ppn} {E : Stop → Prop}

/-! ## The free list alone -/

/-- Books in which nothing but the free list is recorded. -/
def freeOnly (free : List Ppn) : Ghost where
  active := fun _ _ => False
  kept := fun _ => none
  free := free
  own := fun p => if p ∈ free then some .free else none

/-- The free list is one, and of pages that the allocator may have. -/
structure FreeList (y : Layout) (s : Kernel) (free : List Ppn) : Prop where
  chain : Chain (nextOf s) none free
  ram : ∀ p ∈ free, y.IsRam p

theorem freeOnly_own {free : List Ppn} {o : Owner} : (freeOnly free).own p = some o ↔ o = .free ∧ p ∈ free := by
  simp only [freeOnly]
  split
  · next h => simp [h, eq_comm]
  · next h => simp [h]

theorem FreeList.books {free : List Ppn} (h : FreeList y s free) : Books y s (freeOnly free) where
  chain := h.chain
  owner p o := by
    rw [freeOnly_own]
    cases o with
    | free => exact and_iff_right rfl
    | kept u => exact iff_of_false (fun h => nomatch h.1) nofun
    | table d i => exact iff_of_false (fun h => nomatch h.1) fun h => h.1
    | user d i j => exact iff_of_false (fun h => nomatch h.1) fun h => h.1
  ram p o hp := h.ram p (freeOnly_own.mp hp).2
  dir _ _ h := h.elim

theorem safe_freeOnly {P : Ppn → Owner → Prop} {free : List Ppn} (hp : p ∉ free) : Safe P (freeOnly free) p :=
  fun _ ho => (hp (freeOnly_own.mp ho).2).elim

/-! ## The pages of a directory -/

/-- The directory itself, its page tables, and its user memory. -/
inductive Uses (s : Kernel) (d : Ppn) : Ppn → Prop
  | dir : Uses s d d
  | table {i : Index} {t : Ppn} (ht : entry s d i = some t) : Uses s d t
  | user {a : Vpn} {p : Ppn} (ha : a.toNat < 2 ^ 19) (hp : translate s d a = some p) : Uses s d p

/-- All that a directory uses is as it was. -/
def SameSpace (s : Kernel) (d : Ppn) (s' : Kernel) : Prop := ∀ p, Uses s d p → s'.mem p = s.mem p

theorem SameSpace.entry (h : SameSpace s d s') (i : Index) : entry s' d i = entry s d i := by
  unfold Vm.entry
  rw [h d .dir]

theorem SameSpace.pte (h : SameSpace s d s') (a : Vpn) : pte s' d a = pte s d a := by
  unfold Vm.pte
  rw [h.entry]
  cases ht : Vm.entry s d (pdx a) with
  | none => rfl
  | some t => exact congrFun (h t (.table ht)) (ptx a)

theorem Books.not_free_of_uses (hs : Books y s g) (hact : ∀ i, g.active d i) (hp : Uses s d p) : p ∉ g.free := by
  cases hp with
  | dir => exact hs.not_free (hs.own_dir (hact 0)) nofun
  | table ht => exact hs.not_free (hs.own_table (hact _) ht) nofun
  | user ha hp => exact hs.not_free (own_of_translate hs (hact _) ha hp) nofun

theorem Books.freeList (hs : Books y s g) : FreeList y s g.free := ⟨hs.chain, fun p hp => hs.ram p _ (hs.own_free hp)⟩

/-! ## The copy -/

theorem flags_mkPte {w : Word} (p : Ppn) (hw : present w = true) : flags (mkPte p (flags w)) = flags w := by
  apply BitVec.eq_of_getLsbD_eq
  intro i hi
  have happend : (p ++ flags w).getLsbD i = (flags w).getLsbD i := by
    rw [BitVec.getLsbD_append, if_pos hi]
  have hflag : (flags w).getLsbD i = w.getLsbD i := by
    rw [flags, BitVec.getLsbD_extractLsb', Nat.zero_add]
    simp [hi]
  rw [flags, mkPte, BitVec.getLsbD_extractLsb', Nat.zero_add, BitVec.getLsbD_or, happend, hflag, BitVec.getLsbD_one]
  by_cases h0 : i = 0
  · subst h0
    rw [show w.getLsbD 0 = true from hw]
    rfl
  · simp [h0, hi]

/-- The pages before `v` have been copied from `pgdir` in state `s₀` to `d`. -/
structure Copying (y : Layout) (pgdir d : Ppn) (s₀ : Kernel) (g₀ : Ghost) (v : Nat) (s : Kernel) (g : Ghost) :
    Prop where
  books : Books y s g
  active : ∀ i, g.active d i
  gets : Gets (fun p o => o.Of d p) g₀ g
  frame : Frame (fun p o => o.Of d p) s₀ g₀ s
  copied : ∀ a : Vpn, a.toNat < v → ∃ p, pte s d a = mkPte p (flags (pte s₀ pgdir a)) ∧
    s.mem p = s₀.mem (addr (pte s₀ pgdir a)) ∧ g.own p = some (.user d (pdx a) (ptx a))
  rest : ∀ a : Vpn, v ≤ a.toNat → pte s d a = kernelPte (kmap y) a

section

variable {s₀ : Kernel} {g₀ : Ghost} {v n : Nat}

/-- A page of user memory goes to the copy. -/
theorem Copying.step {mem : Ppn} {rest : List Ppn} {s₁ : Kernel} {g₁ : Ghost} (h : Copying y pgdir d s₀ g₀ v s g)
    (hv : v < 2 ^ 19) (hfree : g.free = mem :: rest)
    (hbooks : Books y s₁ (g₁.map mem d (pdx (ofNat 20 v)) (ptx (ofNat 20 v))))
    (hext : Extends d ((popped s mem).fill mem (s₀.mem (addr (pte s₀ pgdir (ofNat 20 v))))) (g.take mem) s₁ g₁)
    (hpte : ∀ b, pte s₁ d b = if b = ofNat 20 v then mkPte mem (flags (pte s₀ pgdir (ofNat 20 v)))
      else pte ((popped s mem).fill mem (s₀.mem (addr (pte s₀ pgdir (ofNat 20 v))))) d b) :
    Copying y pgdir d s₀ g₀ (v + 1) s₁ (g₁.map mem d (pdx (ofNat 20 v)) (ptx (ofNat 20 v))) := by
  have hmem := own_head h.books hfree
  have hnat : (ofNat 20 v).toNat = v := toNat_ofNat_vpn (by omega)
  obtain ⟨-, hact, hgets⟩ := gets_map (i := pdx (ofNat 20 v)) (j := ptx (ofNat 20 v)) h.books hfree hext
  have hold : ∀ b, b ≠ ofNat 20 v → pte s₁ d b = pte s d b := by
    intro b hb
    rw [hpte, if_neg hb, pte_fill h.books h.active hmem]
  refine ⟨hbooks, fun i => hact ▸ h.active i, ?_, ?_, fun a ha => ?_, fun a ha => ?_⟩
  · exact h.gets.trans (fun _ => id) (hgets.mono fun _ _ => Owner.New.of)
  · have hsafe : ∀ p, Safe (fun p o => o.Of d p) g₀ p → Safe (fun p o => o.Of d p) g p := fun p hp =>
      hp.congr ((h.gets p).imp_right And.left)
    refine (h.frame.trans hsafe (.popped hmem)).trans (fun p hp => ?_) (hext.frameOf .refl)
    exact (hsafe p hp).congr (.inl (Ghost.take_own_of_ne ((hsafe p hp).ne hmem (.inl rfl))))
  · by_cases hav : a = ofNat 20 v
    · refine ⟨mem, by rw [hpte, if_pos hav, hav], ?_, by rw [hav]; exact update_self ..⟩
      have hsafe : Safe (fun p o => o.Paging d p) (g.take mem) mem := by
        intro o ho
        cases Ghost.take_own.symm.trans ho
        exact ⟨nofun, id⟩
      rw [hext.frame mem hsafe, hav]
      exact update_self ..
    · have hlt : a.toNat < v := by
        have hne : a.toNat ≠ v := fun heq => hav (BitVec.eq_of_toNat_eq (heq.trans hnat.symm))
        omega
      obtain ⟨q, hq, hcontent, hown⟩ := h.copied a hlt
      have hne : q ≠ mem := by
        rintro rfl
        cases hmem.symm.trans hown
      have hown' : (g.take mem).own q = some (.user d (pdx a) (ptx a)) := (Ghost.take_own_of_ne hne).trans hown
      have hsafe : Safe (fun p o => o.Paging d p) (g.take mem) q := by
        intro o ho
        cases hown'.symm.trans ho
        exact ⟨nofun, id⟩
      refine ⟨q, (hold a hav).trans hq, ?_, ?_⟩
      · rw [hext.frame q hsafe]
        exact (update_of_ne hne ..).trans hcontent
      · show update g₁.own mem _ q = _
        rw [update_of_ne hne]
        rcases hext.own q with heq | ⟨hfree, -⟩
        · exact heq.trans hown'
        · cases hown'.symm.trans hfree
  · have hne : a ≠ ofNat 20 v := by
      rintro rfl
      omega
    rw [hold a hne]
    exact h.rest a (by omega)

theorem copyLoop_copies (hparent : ∀ p, Uses s₀ pgdir p → Safe (fun p o => o.Of d p) g₀ p)
    (hpresent : ∀ a : Vpn, a.toNat < v + n → present (pte s₀ pgdir a) = true) (htop : v + n ≤ 2 ^ 19)
    (h : Copying y pgdir d s₀ g₀ v s g) :
    wp (copyLoop y pgdir d n v) (fun r s' => ∀ d', r = .made d' → d' = d ∧ ∃ g', Copying y pgdir d s₀ g₀ (v + n) s' g')
      E s := by
  induction n generalizing v s g with
  | zero =>
    rintro d' hd
    cases hd
    exact ⟨rfl, g, h⟩
  | succ n ih =>
    have hnat : (ofNat 20 v).toNat = v := toNat_ofNat_vpn (by omega)
    have hsame : SameSpace s₀ pgdir s := fun p hp => h.frame p (hparent p hp)
    have hpres : present (pte s₀ pgdir (ofNat 20 v)) = true := hpresent _ (by omega)
    rw [copyLoop, wp_bind, walkpgdir_false, hsame.entry]
    cases ht : entry s₀ pgdir (pdx (ofNat 20 v)) with
    | none =>
      simp only [pte, ht] at hpres
      exact absurd hpres (by decide)
    | some t =>
      have hpte : s.mem t (ptx (ofNat 20 v)) = pte s₀ pgdir (ofNat 20 v) := by
        rw [pte_of_entry ht, hsame t (.table ht)]
      have huser : translate s₀ pgdir (ofNat 20 v) = some (addr (pte s₀ pgdir (ofNat 20 v))) := by
        rw [translate_eq_entryOf]
        exact if_pos hpres
      show wp (gets _ >>= _) _ E s
      rw [wp_bind, wp_gets, hpte, if_pos hpres, wp_bind]
      refine kalloc_rule h.books (fun _ => ?_) fun mem rest hfree hpop => ?_
      · show wp (freevm y d >>= _) _ E s
        rw [wp_bind]
        exact wp_imp (freevm_wp h.books h.active) fun _ s' _ => by rintro _ ⟨⟩
      · have hx : (popped s mem).mem (addr (pte s₀ pgdir (ofNat 20 v))) =
            s₀.mem (addr (pte s₀ pgdir (ofNat 20 v))) := hsame _ (.user (by omega) huser)
        have hfill := hpop.fill_held Ghost.take_own (s₀.mem (addr (pte s₀ pgdir (ofNat 20 v))))
        have hclear : translate ((popped s mem).fill mem (s₀.mem (addr (pte s₀ pgdir (ofNat 20 v))))) d (ofNat 20 v) =
            none := by
          rw [translate_eq_entryOf, pte_fill h.books h.active (own_head h.books hfree), h.rest _ (by omega),
            kernelPte_of_lt (kmap_ascending y) (by omega)]
          exact entryOf_zero
        show wp (gets _ >>= _) _ E (popped s mem)
        rw [wp_bind, wp_gets, wp_bind, wp_setPage, wp_bind, hx]
        refine mapPage_rule hfill h.active (by omega) Ghost.take_own (.inl hclear) (fun _ _ => ?_)
          fun s₁ g₁ hs₁ hext _ hpte => ?_
        · show wp (freevm y d >>= _) _ E _
          rw [wp_bind]
          exact wp_imp (freevm_wp hfill h.active) fun _ s' _ => by rintro _ ⟨⟩
        · rw [show v + (n + 1) = v + 1 + n by omega]
          refine ih (fun a ha => hpresent a (by omega)) (by omega) (h.step (by omega) hfree hs₁ hext hpte)

end

/-- What `copyuvm` has made: in state `s'`, directory `d` is a copy of the first `sz` bytes of `pgdir` in state `s`. -/
structure IsCopy (y : Layout) (s : Kernel) (pgdir : Ppn) (sz : Nat) (s' : Kernel) (d : Ppn) : Prop where
  /-- The same pages, with the same flags and words, -/
  pages : ∀ a : Vpn, a.toNat < below sz → ∃ p q, translate s pgdir a = some p ∧ translate s' d a = some q ∧
    flags (pte s' d a) = flags (pte s pgdir a) ∧ s'.mem q = s.mem p
  /-- no other user memory, -/
  above : ∀ a : Vpn, below sz ≤ a.toNat → a.toNat < 2 ^ 19 → translate s' d a = none
  /-- the entries that `setupkvm` makes for the kernel, -/
  kernel : ∀ a : Vpn, 2 ^ 19 ≤ a.toNat → pte s' d a = kernelPte (kmap y) a
  /-- and pages of its own. -/
  apart : ∀ p, Uses s' d p → ¬Uses s pgdir p
  parent : SameSpace s pgdir s'

/-- `copyuvm`, for a directory with all the pages below `sz`: it does not panic, and if it returns a directory, that is
a copy. -/
theorem copyuvm_is_faithful {free : List Ppn} {sz : Nat} (hfree : FreeList y s free)
    (hparent : ∀ p, Uses s pgdir p → p ∉ free) (hsz : sz < KERNBASE)
    (hpresent : ∀ a : Vpn, a.toNat < below sz → present (pte s pgdir a) = true) :
    wp (copyuvm y pgdir sz) (fun r s' => ∀ d, r = .made d → IsCopy y s pgdir sz s' d) (fun _ => False) s := by
  have htop : below sz ≤ 2 ^ 19 := by
    simp only [below, PGSIZE, KERNBASE] at *
    omega
  have hsafe : ∀ (d : Ppn) p, Uses s pgdir p → Safe (fun p o => o.Of d p) (freeOnly free) p := fun _ p hp =>
    safe_freeOnly (hparent p hp)
  rw [copyuvm, wp_bind]
  refine wp_imp (setupkvm_wp hfree.books) fun r s₁ h₁ => ?_
  obtain ⟨g₁, hs₁, hr⟩ := h₁
  cases r with
  | none => rintro d ⟨⟩
  | some d =>
    obtain ⟨hd, -, hact, hgets, -, -, hpte, hframe⟩ := hr
    have hstart : Copying y pgdir d s (freeOnly free) 0 s₁ g₁ :=
      ⟨hs₁, fun i => hact ▸ .inl rfl, hgets, hframe, fun a ha => absurd ha (Nat.not_lt_zero _), fun a _ => hpte a⟩
    refine wp_imp (copyLoop_copies (hsafe d) (by rwa [Nat.zero_add]) (by rwa [Nat.zero_add]) hstart)
      fun r s' hr d' hd' => ?_
    obtain ⟨rfl, g', h⟩ := hr d' hd'
    rw [Nat.zero_add] at h
    refine ⟨fun a ha => ?_, fun a ha ha' => ?_, fun a ha => h.rest a (by omega), fun p hp hp' => ?_,
      fun p hp => h.frame p (hsafe d' p hp)⟩
    · obtain ⟨q, hq, hcontent, hown⟩ := h.copied a ha
      refine ⟨_, q, ?_, ?_, ?_, hcontent⟩
      · rw [translate_eq_entryOf]
        exact if_pos (hpresent a ha)
      · rw [translate_eq_entryOf, hq, entryOf_mkPte]
      · rw [hq, flags_mkPte q (hpresent a ha)]
    · rw [translate_eq_entryOf, h.rest a ha, kernelPte_of_lt (kmap_ascending y) ha']
      exact entryOf_zero
    · -- What the new directory has was free.
      have hwas : ∀ o, g'.own p = some o → o ≠ .free → p ∈ free := by
        intro o ho hne
        rcases h.gets p with heq | ⟨hf, -⟩
        · exact (hne (freeOnly_own.mp (heq ▸ ho)).1).elim
        · exact (freeOnly_own.mp hf).2
      refine hparent p hp' ?_
      cases hp with
      | dir => exact hwas _ (h.books.own_dir (h.active 0)) (by rintro ⟨⟩)
      | table ht => exact hwas _ (h.books.own_table (h.active _) ht) (by rintro ⟨⟩)
      | user ha hp => exact hwas _ (own_of_translate h.books (h.active _) ha hp) (by rintro ⟨⟩)

theorem copyuvm_is_faithful_threePages : ∃ d s d' t,
    run (step smallLayout) (start smallLayout fun _ => zeroPage) [.freerange 258 523, .setupkvm,
      .allocuvm d 0 (3 * PGSIZE)] = some s ∧
      copyuvm smallLayout d (3 * PGSIZE) s.kernel = .ok (.made d', t) ∧ IsCopy smallLayout s.kernel d
        (3 * PGSIZE) t d' := by
  obtain ⟨d, s, g, hrun, h, hd, hpop, -, hcount, htab⟩ := grown_dir (fun _ => zeroPage) (n := 200) (by decide)
    (show 3 * PGSIZE < KERNBASE by decide) (by decide)
  have hthree : below (3 * PGSIZE) = 3 := rfl
  have hact := h.all_active hd
  have hcard : (tables s.kernel d).card ≤ 65 := by
    have hsub : tables s.kernel d ⊆ insert 0 kernelTables := by
      intro i hi
      rw [Finset.mem_insert]
      rcases (htab i).mp hi with hk | ⟨b, -, hb, hi⟩
      · exact .inr hk
      · exact .inl (Fin.ext (show i.val = 0 by omega))
    have hinsert := Finset.card_insert_le (0 : Index) kernelTables
    rw [card_kernelTables] at hinsert
    exact (Finset.card_le_card hsub).trans hinsert
  have hpresent : ∀ a : Vpn, a.toNat < below (3 * PGSIZE) → present (pte s.kernel d a) = true := by
    intro a ha
    obtain ⟨p, i, j, hp, hij⟩ := hpop a.toNat (Nat.zero_le _) ha
    have htrans := translate_of_own h.books hp hij
    rw [translate_eq_entryOf] at htrans
    exact (entryOf_eq_some.mp htrans).1
  have hcopy := copyuvm_is_faithful h.books.freeList (fun p hp => h.books.not_free_of_uses hact hp) (by decide) hpresent
  obtain ⟨r, t, hcall, hr, g', -, hends, hpages⟩ := wp_total
    (wp_mono (wp_and hcopy (copyuvm_wp (E := fun _ => False) h.books (.inl hpop))) (fun _ _ => id) fun _ he => he.1)
  cases r with
  | made d' => exact ⟨d, s, d', t, hrun, hcall, hr d' rfl⟩
  | noPage =>
    have := hpages.1
    omega
  | noTable mem =>
    obtain ⟨k, hk, hlen⟩ := hpages
    omega

end Xv6.Vm
