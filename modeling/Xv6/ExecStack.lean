import Xv6.ExecLoad

/- The arguments of a new program (exec.c from the loop over `argv` on; vm.c `uva2ka`, `copyout`).

   The strings are put on the stack one below the other (`Piled`), and below them the words that `main` finds there
   (`ArgStack`). The stack pointer goes down by what the strings need, modulo 2^32, and nothing compares it with
   anything: that the strings have not fit is noticed by `uva2ka` alone.

   1. A string that begins below the stack page goes through the page below it, which is not the user's, and
      `copyout` fails there.
   2. A string that is longer than the new memory takes the stack pointer below 0, to where the devices, or the physical
      memory, are mapped for the kernel, and `copyout` fails at once.
   3. Between the two there is no page table (`Hole`), and `uva2ka` reads the entry from address 0. A `uva2ka` that
      fails there (`uva2kaStrict`) tells these runs from the others.

   `exec_argument_stack_iff`: no entry is missing, and the stack is right or `exec` returns -1, exactly if no string
   takes the pointer there while those before it have fit (`Misses`). `exec_missing_entry`: one does.

   Correspondence (C ↔ Lean):
     `exec` from the loop over the arguments to the last `copyout` ↔ `pushImage` -/
namespace Xv6.Vm
open List Bits Command Transition
open BitVec (ofNat)

variable {argc va : Nat} {buf : List Byte} {m sp : Word} {ustack : List Word}
variable {y : Layout} {ip : Inode} {s s' s₀ : Kernel} {g g' g₀ : Ghost} {p q t d cur : Ppn} {sz : Nat} {E : Stop → Prop}
  {u u' : Vpn → M (Option Ppn)}

/-! ## The argument phase -/

/-- `uva2ka`, which fails where there is no page table. -/
def uva2kaStrict (pgdir : Ppn) (a : Vpn) : M (Option Ppn) := do
  match ← walkpgdir pgdir a false with
  | some (pgtab, i) => do
    let pte ← gets fun s => s.mem pgtab i
    pure (if present pte ∧ pte &&& PTE_U ≠ 0 then some (addr pte) else none)
  | none => fail .trap

/-- `copyoutLoop`, `copyout` and `pushArgs`, with a command for `uva2ka`. -/
def copyoutLoopWith (u : Vpn → M (Option Ppn)) : Nat → Nat → List Byte → M Bool
  | _, _, [] => pure true
  | 0, _, _ :: _ => fail .diverges
  | fuel + 1, va, buf@(_ :: _) => do
    match ← u (ofNat 20 (va / PGSIZE)) with
    | none => pure false
    | some pa0 => do
      let n := PGSIZE - va % PGSIZE
      let x ← gets fun s => s.mem pa0
      setPage pa0 (patch x (va % PGSIZE) (buf.take n))
      copyoutLoopWith u fuel ((va / PGSIZE + 1) * PGSIZE % 2 ^ 32) (buf.drop n)

def copyoutWith (u : Vpn → M (Option Ppn)) (va : Word) (buf : List Byte) : M Bool :=
  copyoutLoopWith u buf.length va.toNat buf

def pushArgsWith (u : Vpn → M (Option Ppn)) : List (List Byte) → Nat → Word → List Word → M (Option (Word × List Word))
  | [], _, sp, ustack => pure (some (sp, ustack))
  | arg :: argv, argc, sp, ustack =>
    if argc ≥ MAXARG then pure none
    else do
      let sp := (sp - ofNat 32 (arg.length + 1)) &&& ~~~3
      if ← copyoutWith u sp (arg ++ [0]) then pushArgsWith u argv (argc + 1) sp (ustack ++ [sp])
      else pure none

/-- The strings, and the words below them: the stack pointer. -/
def pushImageWith (u : Vpn → M (Option Ppn)) (argv : List (List Byte)) (sz : Nat) : M (Option Word) := do
  match ← pushArgsWith u argv 0 (ofNat 32 sz) [] with
  | none => pure none
  | some (sp, ustack) => do
    let argc := argv.length
    let ustack := [0xffffffff, ofNat 32 argc, sp - ofNat 32 ((argc + 1) * 4)] ++ ustack ++ [0]
    let sp := sp - ofNat 32 ((3 + argc + 1) * 4)
    if ← copyoutWith u sp (ustack.flatMap le32) then pure (some sp) else pure none

def pushImage (cur pgdir : Ppn) (argv : List (List Byte)) (sz : Nat) : M (Option Word) :=
  pushImageWith (uva2ka cur pgdir) argv sz

theorem copyoutLoop_eq {fuel : Nat} :
    copyoutLoop cur d fuel va buf = copyoutLoopWith (uva2ka cur d) fuel va buf := by
  induction fuel generalizing va buf with
  | zero => cases buf <;> rfl
  | succ fuel ih =>
    cases buf with
    | nil => rfl
    | cons b buf =>
      simp only [copyoutLoopWith, ← ih]
      rfl

theorem pushArgs_eq {argv : List (List Byte)} :
    pushArgs cur d argv argc sp ustack = pushArgsWith (uva2ka cur d) argv argc sp ustack := by
  induction argv generalizing argc sp ustack with
  | nil => rfl
  | cons arg argv ih => simp only [pushArgs, pushArgsWith, copyout, copyoutWith, copyoutLoop_eq, ih]

/-- `image` is the load phase and the argument phase. -/
theorem wp_image {elf : Elfhdr} {argv : List (List Byte)} {Q : Option (Nat × Word) → Kernel → Prop} :
    wp (image y ip cur d elf argv) Q E s ↔
      wp (loadImage y ip d elf) (fun r s₁ =>
        match r with
        | none => Q none s₁
        | some sz => wp (pushImage cur d argv sz) (fun r s₂ => Q (r.map fun sp => (sz, sp)) s₂) E s₁) E s := by
  rw [image, loadImage, loadImageWith, wp_bind, wp_bind]
  refine wp_congr fun r s₁ => ?_
  cases r with
  | none => rfl
  | some sz =>
    show wp (allocuvm y d _ _ >>= _) _ E s₁ ↔ wp (allocuvm y d _ _ >>= _) _ E s₁
    rw [wp_bind, wp_bind]
    refine wp_congr fun r s₂ => ?_
    by_cases hr : r = 0
    · rw [if_pos hr, if_pos hr]
      rfl
    · rw [if_neg hr, if_neg hr, wp_bind, wp_bind]
      refine wp_congr fun _ s₃ => ?_
      show wp (pushArgs cur d argv 0 _ [] >>= _) Q E s₃ ↔ wp (pushImageWith (uva2ka cur d) argv r) _ E s₃
      rw [pushImageWith, pushArgs_eq, wp_bind, wp_bind]
      refine wp_congr fun r s₄ => ?_
      cases r with
      | none => rfl
      | some r =>
        show wp (copyout cur d _ _ >>= _) Q E s₄ ↔ wp (copyoutWith (uva2ka cur d) _ _ >>= _) _ E s₄
        rw [copyout, copyoutLoop_eq, copyoutWith, wp_bind, wp_bind]
        refine wp_congr fun r s₅ => ?_
        cases r <;> rfl

/-! A command for `uva2ka` that fails more often makes the argument phase fail more often, and changes nothing else. -/

theorem uva2kaStrict_within (a : Vpn) : Within (uva2kaStrict d a) (uva2ka cur d a) := by
  refine .bind .refl fun r => ?_
  cases r with
  | none => exact .fail
  | some r => exact .refl

theorem copyoutLoopWith_within {fuel : Nat} (h : ∀ a, Within (u a) (u' a)) :
    Within (copyoutLoopWith u fuel va buf) (copyoutLoopWith u' fuel va buf) := by
  induction fuel generalizing va buf with
  | zero => cases buf <;> exact .refl
  | succ fuel ih =>
    cases buf with
    | nil => exact .refl
    | cons b buf =>
      rw [copyoutLoopWith, copyoutLoopWith]
      refine .bind (h _) fun r => ?_
      cases r with
      | none => exact .refl
      | some pa => exact .bind .refl fun x => .bind .refl fun _ => ih

theorem pushArgsWith_within {argv : List (List Byte)} (h : ∀ a, Within (u a) (u' a)) :
    Within (pushArgsWith u argv argc sp ustack) (pushArgsWith u' argv argc sp ustack) := by
  induction argv generalizing argc sp ustack with
  | nil => exact .refl
  | cons arg argv ih =>
    rw [pushArgsWith, pushArgsWith]
    exact .ite .refl (.bind (copyoutLoopWith_within h) fun r => .ite ih .refl)

theorem pushImageWith_within {argv : List (List Byte)} (h : ∀ a, Within (u a) (u' a)) :
    Within (pushImageWith u argv sz) (pushImageWith u' argv sz) := by
  refine .bind (pushArgsWith_within h) fun r => ?_
  cases r with
  | none => exact .refl
  | some r => exact .bind (copyoutLoopWith_within h) fun _ => .refl

/-! ## Bytes of user memory -/

def byteAt (x : Page) (k : Nat) : Byte := (x ⟨k / 4 % 1024, Nat.mod_lt _ (by decide)⟩).extractLsb' (8 * (k % 4)) 8

theorem byteAt_patch {x : Page} {off k : Nat} {bs : List Byte} (hk : k < PGSIZE) :
    byteAt (patch x off bs) k = if off ≤ k ∧ k < off + bs.length then bs.getD (k - off) 0 else byteAt x k := by
  have hword : 4 * (k / 4 % 1024) + k % 4 = k := by
    simp only [PGSIZE] at hk
    omega
  unfold byteAt patch
  dsimp only
  rw [extract_join (fun j => if off ≤ 4 * (k / 4 % 1024) + j ∧ 4 * (k / 4 % 1024) + j < off + bs.length then
    bs.getD (4 * (k / 4 % 1024) + j - off) 0 else (x ⟨k / 4 % 1024, _⟩).extractLsb' (8 * j) 8)
      (Nat.mod_lt k (by decide))]
  rw [hword]

def userByte (s : Kernel) (d : Ppn) (va : Nat) : Option Byte :=
  (translate s d (ofNat 20 (va / PGSIZE))).map fun p => byteAt (s.mem p) (va % PGSIZE)

/-- Where `uva2ka` finds a page. -/
def userEntry (s : Kernel) (d : Ppn) (a : Vpn) : Option Ppn :=
  if present (pte s d a) ∧ pte s d a &&& PTE_U ≠ 0 then some (addr (pte s d a)) else none

/-- The pages of the user for which `A` holds have been stored to, and nothing else. -/
structure Touches (d : Ppn) (A : Vpn → Prop) (s s' : Kernel) : Prop where
  freelist : s'.freelist = s.freelist
  pte : ∀ a, pte s' d a = pte s d a
  mem : ∀ p, s'.mem p ≠ s.mem p → ∃ a, A a ∧ userEntry s d a = some p

theorem Touches.refl {A : Vpn → Prop} : Touches d A s s := ⟨rfl, fun _ => rfl, fun _ h => absurd rfl h⟩

theorem Touches.mono {A A' : Vpn → Prop} (h : Touches d A s s') (hA : ∀ a, A a → A' a) : Touches d A' s s' := by
  refine ⟨h.freelist, h.pte, fun p hp => ?_⟩
  obtain ⟨a, ha, heq⟩ := h.mem p hp
  exact ⟨a, hA a ha, heq⟩

theorem Touches.trans {A : Vpn → Prop} {t : Kernel} (h : Touches d A s s') (h' : Touches d A s' t) :
    Touches d A s t := by
  refine ⟨h'.freelist.trans h.freelist, fun a => (h'.pte a).trans (h.pte a), fun p hp => ?_⟩
  by_cases heq : t.mem p = s'.mem p
  · exact h.mem p (heq ▸ hp)
  · obtain ⟨a, ha, hentry⟩ := h'.mem p heq
    refine ⟨a, ha, ?_⟩
    rwa [userEntry, h.pte] at hentry

def Holds (B : Nat → Option Byte) (a : Nat) (bs : List Byte) : Prop := ∀ k, k < bs.length → B (a + k) = bs[k]?

/-- NUL-terminated copies of the strings, each below the one before, from `top` down to `low`. -/
inductive Piled (B : Nat → Option Byte) : Nat → List (List Byte) → List Word → Nat → Prop
  | nil {top : Nat} : Piled B top [] [] top
  | cons {top low : Nat} {arg : List Byte} {argv : List (List Byte)} {ptr : Word} {ptrs : List Word} :
      Holds B ptr.toNat (arg ++ [0]) → ptr.toNat + (arg.length + 1) ≤ top → Piled B ptr.toNat argv ptrs low →
      Piled B top (arg :: argv) (ptr :: ptrs) low

/-- The stack of a program of size `sz` that is called with `argv`: the strings, at `ptrs`, and from `esp` on the return
address, `argc`, the address of the pointers, and the pointers. -/
structure ArgStack (B : Nat → Option Byte) (sz esp : Nat) (argv : List (List Byte)) (ptrs : List Word) (low : Nat) :
    Prop where
  strings : Piled B sz argv ptrs low
  words : Holds B esp (([0xffffffff, ofNat 32 argv.length, ofNat 32 (esp + 12)] ++ ptrs ++ [0]).flatMap le32)
  count : argv.length ≤ MAXARG
  room : esp + 4 * (argv.length + 4) ≤ low
  inside : sz - PGSIZE ≤ esp

section stack

variable {B B' : Nat → Option Byte} {top low esp : Nat} {argv : List (List Byte)} {ptrs : List Word}

theorem Holds.congr {a : Nat} {bs : List Byte} (h : Holds B a bs)
    (hB : ∀ va, a ≤ va → va < a + bs.length → B' va = B va) :
    Holds B' a bs := by
  intro k hk
  rw [hB (a + k) (by omega) (by omega)]
  exact h k hk

theorem Piled.low_le (h : Piled B top argv ptrs low) : low ≤ top := by
  induction h with
  | nil => exact le_refl _
  | cons _ hle _ ih => omega

theorem Piled.length_eq (h : Piled B top argv ptrs low) : ptrs.length = argv.length := by
  induction h with
  | nil => rfl
  | cons _ _ _ ih => rw [length_cons, length_cons, ih]

theorem Piled.congr (h : Piled B top argv ptrs low) (hB : ∀ va, low ≤ va → va < top → B' va = B va) :
    Piled B' top argv ptrs low := by
  induction h with
  | nil => exact .nil
  | @cons top low arg argv ptr ptrs hholds hle hpiled ih =>
    have hlow := hpiled.low_le
    have hlen : (arg ++ [0]).length = arg.length + 1 := length_append
    refine .cons (hholds.congr fun va hlo hhi => hB va (by omega) (by omega)) hle
      (ih fun va hlo hhi => hB va hlo (by omega))

theorem flatMap_le32_length (ws : List Word) : (ws.flatMap le32).length = 4 * ws.length := by
  induction ws with
  | nil => rfl
  | cons w ws ih =>
    rw [flatMap_cons, length_append, ih, length_cons]
    show 4 + 4 * ws.length = _
    omega

theorem ArgStack.congr (h : ArgStack B sz esp argv ptrs low) (hB : ∀ va, sz - PGSIZE ≤ va → va < sz → B' va = B va) :
    ArgStack B' sz esp argv ptrs low := by
  have hinside := h.inside
  have hroom := h.room
  have hlow := h.strings.low_le
  refine ⟨h.strings.congr fun va hlo hhi => hB va (by omega) hhi, h.words.congr fun va hlo hhi => hB va (by omega) ?_,
    h.count, hroom, hinside⟩
  rw [flatMap_le32_length] at hhi
  simp only [length_append, length_cons, length_nil, h.strings.length_eq] at hhi
  omega

end stack

/-! ## copyout -/

theorem wp_uva2kaStrict {Q : Option Ppn → Kernel → Prop} {a : Vpn} (h : present (pte s d a) = true) :
    wp (uva2kaStrict d a) Q E s ↔ Q (userEntry s d a) s := by
  cases ht : entry s d (pdx a) with
  | none =>
    simp only [pte, ht] at h
    exact absurd h (by decide)
  | some t =>
    rw [uva2kaStrict, wp_bind, walkpgdir_false, ht, userEntry, pte_of_entry ht]
    rfl

theorem userEntry_mkPte {a : Vpn} (h : pte s d a = mkPte p PTE_WU) : userEntry s d a = some p := by
  have huser : mkPte p PTE_WU &&& PTE_U ≠ 0 := by
    intro heq
    have hbit := congrArg (fun w => w.getLsbD 2) heq
    rw [BitVec.getLsbD_and, mkPte, BitVec.getLsbD_or, BitVec.getLsbD_append, if_pos (by decide)] at hbit
    exact absurd hbit (by decide)
  rw [userEntry, h, if_pos ⟨present_mkPte .., huser⟩, addr_mkPte]

theorem Loaded.fill {i j : Index} (h : Loaded y d s₀ g₀ sz s g) (hp : g.own p = some (.user d i j)) (x : Page) :
    Loaded y d s₀ g₀ sz (s.fill p x) g := by
  have hpte : ∀ a, pte (s.fill p x) d a = pte s d a :=
    pte_fill_of_ne h.books h.active (by rw [hp]; nofun) (by rw [hp]; nofun)
  refine ⟨h.toBuilding.fill hp x, h.aligned, h.two, ?_, fun a ha hne => ?_, fun a ha hlt => ?_, h.others⟩
  · rw [hpte]
    exact h.guard
  · rw [hpte]
    exact h.user a ha hne
  · rw [hpte]
    exact h.clear a ha hlt

theorem Loaded.userPage (h : Loaded y d s₀ g₀ sz s g) {a : Vpn} (ha : a.toNat < below sz) (hne : a ≠ fromTop sz 2) :
    ∃ p, pte s d a = mkPte p PTE_WU ∧ g.own p = some (.user d (pdx a) (ptx a)) := by
  obtain ⟨p, hp⟩ := h.user a ha hne
  refine ⟨p, hp, own_of_translate h.books (h.active _) (h.lt ha) ?_⟩
  rw [translate_eq_entryOf, hp, entryOf_mkPte]

theorem Loaded.touches_fill {a : Vpn} {A : Vpn → Prop} {i j : Index} (h : Loaded y d s₀ g₀ sz s g)
    (hown : g.own p = some (.user d i j)) (hp : userEntry s d a = some p) (ha : A a) (x : Page) :
    Touches d A s (s.fill p x) := by
  refine ⟨rfl, pte_fill_of_ne h.books h.active (by rw [hown]; nofun) (by rw [hown]; nofun), fun r hr => ⟨a, ha, ?_⟩⟩
  by_cases heq : r = p
  · rw [heq, hp]
  · exact absurd (mem_fill_of_ne heq) hr

theorem copyoutLoopWith_nil {fuel : Nat} : copyoutLoopWith u fuel va [] = pure true := by
  cases fuel <;> rfl

section memory

variable (h : Loaded y d s₀ g₀ sz s g)

include h

theorem Loaded.pages : below sz = sz / PGSIZE ∧ 2 ≤ sz / PGSIZE ∧ sz / PGSIZE * PGSIZE = sz ∧ sz / PGSIZE ≤ 2 ^ 19 := by
  have haligned := h.aligned
  have htwo := h.two
  have htop := h.top
  simp only [below, PGSIZE, KERNBASE] at *
  omega

theorem Loaded.stackPage : ∃ q, pte s d (fromTop sz 1) = mkPte q PTE_WU ∧
    g.own q = some (.user d (pdx (fromTop sz 1)) (ptx (fromTop sz 1))) := by
  obtain ⟨hbelow, htwo, -, -⟩ := h.pages
  have hone := fromTop_toNat (k := 1) h.top
  refine h.userPage (by omega) fun heq => ?_
  rw [heq, fromTop_toNat h.top] at hone
  omega

end memory

/-- What a `copyout` to the stack page does. -/
structure CopiedOut (d : Ppn) (sz a : Nat) (bs : List Byte) (s s' : Kernel) : Prop where
  touches : Touches d (· = fromTop sz 1) s s'
  bytes : ∀ va, sz - PGSIZE ≤ va → va < sz → userByte s' d va = if a ≤ va ∧ va < a + bs.length then bs[va - a]?
    else userByte s d va

theorem ofNat_page (hmul : sz / PGSIZE * PGSIZE = sz) (hlo : sz - PGSIZE ≤ va) (hhi : va < sz) :
    ofNat 20 (va / PGSIZE) = fromTop sz 1 := by
  have hpage : va / PGSIZE = sz / PGSIZE - 1 := by
    simp only [PGSIZE] at *
    omega
  rw [hpage, fromTop]

theorem userByte_stack (hmul : sz / PGSIZE * PGSIZE = sz) (hq : pte s d (fromTop sz 1) = mkPte q PTE_WU)
    (hlo : sz - PGSIZE ≤ va) (hhi : va < sz) : userByte s d va = some (byteAt (s.mem q) (va % PGSIZE)) := by
  rw [userByte, ofNat_page hmul hlo hhi, translate_eq_entryOf, hq, entryOf_mkPte]
  rfl

/-- The bytes go to the page below `sz`. -/
theorem Loaded.copiedOut {i j : Index} {a : Nat} {bs : List Byte} (h : Loaded y d s₀ g₀ sz s g)
    (hq : pte s d (fromTop sz 1) = mkPte q PTE_WU) (hown : g.own q = some (.user d i j)) (hlo : sz - PGSIZE ≤ a)
    (hhi : a + bs.length ≤ sz) (hpos : 0 < bs.length) :
    CopiedOut d sz a bs s (s.fill q (patch (s.mem q) (a % PGSIZE) bs)) := by
  obtain ⟨-, -, hmul, -⟩ := h.pages
  have htouch :=
    h.touches_fill (A := (· = fromTop sz 1)) hown (userEntry_mkPte hq) rfl (patch (s.mem q) (a % PGSIZE) bs)
  refine ⟨htouch, fun va hva hva' => ?_⟩
  have hself : (s.fill q (patch (s.mem q) (a % PGSIZE) bs)).mem q = patch (s.mem q) (a % PGSIZE) bs :=
    Function.update_self ..
  rw [userByte_stack hmul ((htouch.pte _).trans hq) hva hva', hself, byteAt_patch (Nat.mod_lt _ (by decide))]
  have hrange : (a % PGSIZE ≤ va % PGSIZE ∧ va % PGSIZE < a % PGSIZE + bs.length ↔ a ≤ va ∧ va < a + bs.length) ∧
      (a ≤ va → va % PGSIZE - a % PGSIZE = va - a) := by
    simp only [PGSIZE] at *
    omega
  by_cases hin : a ≤ va ∧ va < a + bs.length
  · rw [if_pos hin, if_pos (hrange.1.mpr hin), hrange.2 hin.1, getD_eq_getElem?_getD,
      List.getElem?_eq_getElem (by omega)]
    rfl
  · rw [if_neg hin, if_neg fun hc => hin (hrange.1.mp hc), userByte_stack hmul hq hva hva']

theorem Loaded.copyout_stack (h : Loaded y d s₀ g₀ sz s g) (hpos : 0 < buf.length)
    (hlo : sz - PGSIZE ≤ m.toNat) (hhi : m.toNat + buf.length ≤ sz) :
    wp (copyoutWith (uva2kaStrict d) m buf) (fun r s' => r = true ∧ Loaded y d s₀ g₀ sz s' g ∧
      CopiedOut d sz m.toNat buf s s') E s := by
  obtain ⟨-, -, hmul, -⟩ := h.pages
  obtain ⟨q, hq, hown⟩ := h.stackPage
  cases buf with
  | nil => exact absurd hpos (Nat.lt_irrefl 0)
  | cons b buf =>
    have hfits : (b :: buf).length ≤ PGSIZE - m.toNat % PGSIZE := by
      simp only [PGSIZE] at *
      omega
    rw [copyoutWith, length_cons, copyoutLoopWith, wp_bind, ofNat_page hmul hlo (by omega),
      wp_uva2kaStrict (by rw [hq]; exact present_mkPte ..), userEntry_mkPte hq]
    show wp (gets _ >>= _) _ _ s
    rw [wp_bind, wp_gets, wp_bind, wp_setPage, take_of_length_le hfits, drop_of_length_le hfits, copyoutLoopWith_nil]
    exact ⟨rfl, h.fill hown _, h.copiedOut hq hown hlo hhi hpos⟩

/-- Of the pages below the size, those that the user may have. -/
def Inside (sz : Nat) (a : Vpn) : Prop := a.toNat * PGSIZE < sz

/-- What begins below the stack page and does not end below the page before it does not get through. -/
theorem Loaded.copyout_below {fuel : Nat} (h : Loaded y d s₀ g₀ sz s g) (hfuel : buf.length ≤ fuel)
    (hpos : 0 < buf.length) (hva : va < sz - PGSIZE) (hend : sz - 2 * PGSIZE < va + buf.length) :
    wp (copyoutLoopWith (uva2kaStrict d) fuel va buf) (fun r s' => r = false ∧ Loaded y d s₀ g₀ sz s' g ∧
      Touches d (Inside sz) s s')
      E s := by
  obtain ⟨hbelow, htwo, hmul, hle⟩ := h.pages
  induction fuel generalizing va buf s with
  | zero => exact absurd hpos (by omega)
  | succ fuel ih =>
    have hpage : va / PGSIZE ≤ sz / PGSIZE - 2 := by
      simp only [PGSIZE] at *
      omega
    have hnat : (ofNat 20 (va / PGSIZE)).toNat = va / PGSIZE := toNat_ofNat_vpn (by omega)
    have hinside : Inside sz (ofNat 20 (va / PGSIZE)) := by
      rw [Inside, hnat]
      simp only [PGSIZE] at *
      omega
    cases buf with
    | nil => exact absurd hpos (Nat.lt_irrefl 0)
    | cons b buf =>
      rw [copyoutLoopWith, wp_bind]
      by_cases hguard : ofNat 20 (va / PGSIZE) = fromTop sz 2
      · -- the page below the stack is mapped, but not for the user
        obtain ⟨t, ht, hpresent, -⟩ := h.page (a := fromTop sz 2) (by rw [fromTop_toNat h.top]; omega)
        have hnone : userEntry s d (fromTop sz 2) = none := if_neg fun hc => hc.2 h.guard
        rw [hguard, wp_uva2kaStrict (by rwa [pte_of_entry ht]), hnone]
        exact ⟨rfl, h, .refl⟩
      · obtain ⟨p, hp, hown⟩ := h.userPage (a := ofNat 20 (va / PGSIZE)) (by omega) hguard
        rw [wp_uva2kaStrict (by rw [hp]; exact present_mkPte ..), userEntry_mkPte hp]
        show wp (gets _ >>= _) _ _ s
        rw [wp_bind, wp_gets, wp_bind, wp_setPage]
        have hne : va / PGSIZE ≠ sz / PGSIZE - 2 := by
          intro heq
          rw [heq] at hguard
          exact hguard rfl
        have hnext : (va / PGSIZE + 1) * PGSIZE % 2 ^ 32 = va + (PGSIZE - va % PGSIZE) ∧
            va + (PGSIZE - va % PGSIZE) ≤ sz - 2 * PGSIZE ∧ 0 < PGSIZE - va % PGSIZE := by
          simp only [PGSIZE] at *
          omega
        have hlen : ((b :: buf).drop (PGSIZE - va % PGSIZE)).length = (b :: buf).length - (PGSIZE - va % PGSIZE) :=
          length_drop
        have hfill := h.fill hown (patch (s.mem p) (va % PGSIZE) ((b :: buf).take (PGSIZE - va % PGSIZE)))
        refine wp_imp (ih hfill (by omega) (by omega) (by omega) (by omega)) fun r s' h' => ?_
        obtain ⟨hr, h', htouch⟩ := h'
        exact ⟨hr, h', (h.touches_fill hown (userEntry_mkPte hp) hinside _).trans htouch⟩

theorem kernelPte_covered {ks : List Kmap} {a : Vpn} (hperm : ∀ k ∈ ks, k.perm.getLsbD 2 = false)
    (ha : ∃ k ∈ ks, k.first ≤ a.toNat ∧ a.toNat < k.first + k.pages) :
    present (kernelPte ks a) = true ∧ kernelPte ks a &&& PTE_U = 0 := by
  induction ks with
  | nil =>
    obtain ⟨k, hk, -⟩ := ha
    cases hk
  | cons k ks ih =>
    rw [kernelPte]
    split
    · refine ⟨present_mkPte .., BitVec.eq_of_getLsbD_eq fun i hi => ?_⟩
      rw [BitVec.getLsbD_and]
      by_cases hi2 : i = 2
      · subst hi2
        rw [mkPte, BitVec.getLsbD_or, BitVec.getLsbD_append, if_pos (by decide), hperm k (mem_cons_self ..)]
        rfl
      · rw [getLsbD_PTE_U hi2, Bool.and_false]
        simp
    · next hnot =>
      obtain ⟨k', hk', hin⟩ := ha
      refine ih (fun k hk => hperm k (mem_cons_of_mem _ hk)) ⟨k', (List.mem_cons.mp hk').resolve_left ?_, hin⟩
      rintro rfl
      exact hnot hin

/-- Where no directory has a page table. -/
def Hole (m : Word) : Prop := KERNBASE + PHYSTOP ≤ m.toNat ∧ m.toNat < DEVSPACE

theorem kernelPte_outside (hm : KERNBASE ≤ m.toNat) (hhole : ¬Hole m) :
    present (kernelPte (kmap y) (ofNat 20 (m.toNat / PGSIZE))) = true ∧
      kernelPte (kmap y) (ofNat 20 (m.toNat / PGSIZE)) &&& PTE_U = 0 := by
  have hdata := dataPage_bounds y
  have hnat : (ofNat 20 (m.toNat / PGSIZE)).toNat = m.toNat / PGSIZE := toNat_ofNat_vpn (by simp only [PGSIZE]; omega)
  obtain ⟨k₁, k₂, k₃, k₄, heq, ⟨-, hf₁, hp₁⟩, ⟨-, hf₂, hp₂⟩, ⟨-, hf₃, hp₃⟩, -, hf₄, hp₄⟩ := kmap_pages y
  refine kernelPte_covered (fun k hk => ?_) ?_
  · simp only [kmap, mem_cons, not_mem_nil, or_false] at hk
    rcases hk with rfl | rfl | rfl | rfl <;> dsimp only <;> decide
  · rw [heq, hnat]
    simp only [Hole, KERNBASE, PHYSTOP, DEVSPACE, PGSIZE, mem_cons, not_mem_nil, or_false, exists_eq_or_imp,
      exists_eq_left] at *
    omega

theorem toNat_align (x : Word) : (x &&& ~~~3).toNat = x.toNat / 4 * 4 := by
  have hshift : x &&& ~~~(3 : Word) = (x >>> 2) <<< 2 := by
    apply BitVec.eq_of_getLsbD_eq
    intro i hi
    have hthree : (3#32).getLsbD i = decide (i < 2) := by
      rw [BitVec.getLsbD_ofNat, show 3 = 2 ^ 2 - 1 from rfl, Nat.testBit_two_pow_sub_one]
      simp [hi]
    rw [BitVec.getLsbD_and, BitVec.getLsbD_not, BitVec.getLsbD_shiftLeft, BitVec.getLsbD_ushiftRight]
    show (x.getLsbD i && (decide (i < 32) && !(3#32).getLsbD i)) = _
    rw [hthree]
    by_cases h : i < 2
    · simp [h]
    · simp [hi, h, show 2 + (i - 2) = i by omega]
  have hlt := x.isLt
  rw [hshift, BitVec.toNat_shiftLeft, BitVec.toNat_ushiftRight, Nat.shiftLeft_eq, Nat.shiftRight_eq_div_pow]
  omega

theorem Loaded.copyout_kernel (h : Loaded y d s₀ g₀ sz s g) (hpos : 0 < buf.length)
    (hm : KERNBASE ≤ m.toNat) (hhole : ¬Hole m) :
    wp (copyoutWith (uva2kaStrict d) m buf) (fun r s' => r = false ∧ s' = s) E s := by
  have hnat : (ofNat 20 (m.toNat / PGSIZE)).toNat = m.toNat / PGSIZE := toNat_ofNat_vpn (by simp only [PGSIZE]; omega)
  obtain ⟨hpresent, hkernel⟩ := kernelPte_outside (y := y) hm hhole
  rw [← h.kernel _ (by rw [hnat]; simp only [KERNBASE, PGSIZE] at *; omega)] at hpresent hkernel
  cases buf with
  | nil => exact absurd hpos (Nat.lt_irrefl 0)
  | cons b buf =>
    have hnone : userEntry s d (ofNat 20 (m.toNat / PGSIZE)) = none := if_neg fun hc => hc.2 hkernel
    rw [copyoutWith, length_cons, copyoutLoopWith, wp_bind, wp_uva2kaStrict hpresent, hnone]
    exact ⟨rfl, rfl⟩

theorem Loaded.entry_hole (h : Loaded y d s₀ g₀ sz s g) (hhole : Hole m) :
    entry s d (pdx (ofNat 20 (m.toNat / PGSIZE))) = none := by
  have hlt := m.isLt
  have hindex : (pdx (ofNat 20 (m.toNat / PGSIZE))).val = m.toNat / PGSIZE / 1024 :=
    pdx_ofNat (by simp only [PGSIZE]; omega)
  simp only [Hole, KERNBASE, PHYSTOP, DEVSPACE, PGSIZE] at *
  exact h.hole _ (by omega) (by omega)

theorem Loaded.copyout_hole (h : Loaded y d s₀ g₀ sz s g) (hpos : 0 < buf.length) (hhole : Hole m) :
    wp (copyoutWith (uva2kaStrict d) m buf) (fun _ _ => False) (· = .trap) s := by
  cases buf with
  | nil => exact absurd hpos (Nat.lt_irrefl 0)
  | cons b buf =>
    rw [copyoutWith, length_cons, copyoutLoopWith, wp_bind, uva2kaStrict, wp_bind, walkpgdir_false, h.entry_hole hhole]
    rfl

theorem push_range {n : Nat} (hsp : sp.toNat ≤ KERNBASE) (hn : n ≤ KERNBASE)
    (hm : m = sp - ofNat 32 n ∨ m = (sp - ofNat 32 n) &&& ~~~3) :
    m.toNat + n ≤ sp.toNat ∧ sp.toNat ≤ m.toNat + n + 3 ∨ KERNBASE ≤ m.toNat := by
  simp only [KERNBASE] at hsp hn ⊢
  have hsub : (sp - ofNat 32 n).toNat = (2 ^ 32 - n + sp.toNat) % 2 ^ 32 := by
    rw [BitVec.toNat_sub, BitVec.toNat_ofNat, Nat.mod_eq_of_lt (show n < 2 ^ 32 by omega)]
  have hle : m.toNat ≤ (sp - ofNat 32 n).toNat ∧ (sp - ofNat 32 n).toNat ≤ m.toNat + 3 := by
    rcases hm with rfl | rfl
    · omega
    · rw [toNat_align]
      omega
  have hfour : m = sp - ofNat 32 n ∨ m.toNat = (sp - ofNat 32 n).toNat / 4 * 4 := by
    rcases hm with rfl | rfl
    · exact .inl rfl
    · exact .inr (toNat_align _)
  rcases hfour with rfl | hfour <;> omega

/-- `copyout` of what is pushed on the stack. -/
theorem Loaded.push (h : Loaded y d s₀ g₀ sz s g) (hpos : 0 < buf.length) (hlo : sz - PGSIZE ≤ sp.toNat)
    (hhi : sp.toNat ≤ sz) (hlen : buf.length ≤ KERNBASE) (hhole : ¬Hole m)
    (hm : m = sp - ofNat 32 buf.length ∨ m = (sp - ofNat 32 buf.length) &&& ~~~3) :
    wp (copyoutWith (uva2kaStrict d) m buf) (fun r s' => Loaded y d s₀ g₀ sz s' g ∧
      (r = false ∧ Touches d (Inside sz) s s' ∨
        r = true ∧ sz - PGSIZE ≤ m.toNat ∧ m.toNat + buf.length ≤ sp.toNat ∧ sp.toNat ≤ m.toNat + buf.length + 3 ∧
          CopiedOut d sz m.toNat buf s s')) E s := by
  rcases push_range (hhi.trans h.top) hlen hm with ⟨hle, hnear⟩ | hkernel
  · by_cases hstack : sz - PGSIZE ≤ m.toNat
    · refine wp_imp (h.copyout_stack hpos hstack (by omega)) fun r s' ⟨hr, h', hcopied⟩ => ?_
      exact ⟨h', .inr ⟨hr, hstack, hle, hnear, hcopied⟩⟩
    · have htwo := h.two
      refine wp_imp (h.copyout_below (Nat.le_refl _) hpos (by omega) ?_) fun r s' ⟨hr, h', htouch⟩ => ⟨h',
        .inl ⟨hr, htouch⟩⟩
      simp only [PGSIZE] at *
      omega
  · refine wp_imp (h.copyout_kernel hpos hkernel hhole) ?_
    rintro r _ ⟨hr, rfl⟩
    exact ⟨h, .inl ⟨hr, .refl⟩⟩

/-! ## The strings and the words -/

theorem inside_fromTop (h : Loaded y d s₀ g₀ sz s g) : Inside sz (fromTop sz 1) := by
  obtain ⟨-, htwo, hmul, -⟩ := h.pages
  rw [Inside, fromTop_toNat h.top]
  simp only [PGSIZE] at *
  omega

/-- A string takes the stack pointer into the hole, and those before it have been put into the stack page. -/
def Misses (sz : Nat) : List (List Byte) → Nat → Word → Prop
  | [], _, _ => False
  | arg :: argv, argc, sp =>
    let m := (sp - ofNat 32 (arg.length + 1)) &&& ~~~3
    argc < MAXARG ∧ (Hole m ∨ sz - PGSIZE ≤ m.toNat ∧ m.toNat < sz ∧ Misses sz argv (argc + 1) m)

theorem Loaded.pushArgs {argv : List (List Byte)} (h : Loaded y d s₀ g₀ sz s g)
    (hlo : sz - PGSIZE ≤ sp.toNat) (hhi : sp.toNat ≤ sz) (hargc : argc ≤ MAXARG)
    (hargs : ∀ arg ∈ argv, arg.length < KERNBASE) (hclear : ¬Misses sz argv argc sp) :
    wp (pushArgsWith (uva2kaStrict d) argv argc sp ustack) (fun r s' => Loaded y d s₀ g₀ sz s' g ∧
      match r with
      | none => Touches d (Inside sz) s s'
      | some (sp', ustack') => ∃ ptrs, ustack' = ustack ++ ptrs ∧ argc + argv.length ≤ MAXARG ∧
          sz - PGSIZE ≤ sp'.toNat ∧
          Touches d (· = fromTop sz 1) s s' ∧ Piled (userByte s' d) sp.toNat argv ptrs sp'.toNat ∧
          ∀ va, sp.toNat ≤ va → va < sz → userByte s' d va = userByte s d va) E s := by
  induction argv generalizing argc sp ustack s with
  | nil => exact ⟨h, [], (append_nil _).symm, hargc, hlo, .refl, .nil, fun _ _ _ => rfl⟩
  | cons arg argv ih =>
    have hlen : (arg ++ [0]).length = arg.length + 1 := length_append
    rw [pushArgsWith, wp_ite]
    refine ⟨fun _ => ⟨h, .refl⟩, fun hlt => ?_⟩
    rw [wp_bind]
    simp only [Misses, Nat.lt_of_not_ge hlt, true_and, not_or] at hclear
    generalize hm : (sp - ofNat 32 (arg.length + 1)) &&& ~~~3 = m at hclear ⊢
    have hshort := hargs arg (mem_cons_self ..)
    refine wp_imp (h.push (by omega) hlo hhi (by omega) hclear.1 (.inr (by rw [hlen]; exact hm.symm))) ?_
    rintro r s₁ ⟨h₁, ⟨rfl, htouch⟩ | ⟨rfl, hlo₁, hle, -, hcopied⟩⟩
    · exact ⟨h₁, htouch⟩
    · have hnext : ¬Misses sz argv (argc + 1) m := fun hmiss => hclear.2 ⟨hlo₁, by omega, hmiss⟩
      refine wp_imp (ih h₁ hlo₁ (by omega) (by omega) (fun a ha => hargs a (mem_cons_of_mem _ ha)) hnext)
        fun r s' ⟨h', hr⟩ => ⟨h', ?_⟩
      cases r with
      | none =>
        refine (hcopied.touches.mono fun a ha => ?_).trans hr
        rw [ha]
        exact inside_fromTop h
      | some r =>
        obtain ⟨sp', ustack'⟩ := r
        obtain ⟨ptrs, hstack, hcount, hlo', htouch, hpiled, hsame⟩ := hr
        have hsame' : ∀ va, m.toNat + (arg.length + 1) ≤ va → va < sz → userByte s' d va = userByte s d va := by
          intro va hva hva'
          rw [hsame va (by omega) hva', hcopied.bytes va (by omega) hva', if_neg (by omega)]
        refine ⟨m :: ptrs, by rw [hstack, append_assoc]; rfl, by rw [length_cons]; omega, hlo',
          hcopied.touches.trans htouch,
          .cons (fun k hk => ?_) (by omega) hpiled, fun va hva hva' => hsame' va (by omega) hva'⟩
        rw [hsame _ (by omega) (by omega), hcopied.bytes _ (by omega) (by omega), if_pos (by omega),
          Nat.add_sub_cancel_left]

theorem Loaded.copyout_fits {arg : List Byte} (h : Loaded y d s₀ g₀ sz s g) (hhi : sp.toNat ≤ sz)
    (hshort : arg.length < KERNBASE) (hm : (sp - ofNat 32 (arg.length + 1)) &&& ~~~3 = m) (hlo : sz - PGSIZE ≤ m.toNat)
    (hlt : m.toNat < sz) :
    wp (copyoutWith (uva2kaStrict d) m (arg ++ [0])) (fun r s' => r = true ∧ Loaded y d s₀ g₀ sz s' g ∧
      CopiedOut d sz m.toNat (arg ++ [0]) s s') E s := by
  have htop := h.top
  have hlen : (arg ++ [0]).length = arg.length + 1 := length_append
  refine h.copyout_stack (by omega) hlo ?_
  rcases push_range (n := arg.length + 1) (hhi.trans htop) (by omega) (.inr hm.symm) with hfits | hkernel <;> omega

/-- A string that takes the stack pointer there ends the argument phase, if `copyout` to there fails, for whatever
finds the pages that there are. -/
theorem Loaded.misses {u : Vpn → M (Option Ppn)} {C : Prop} {argv : List (List Byte)}
    (hu : ∀ a, Within (uva2kaStrict d a) (u a))
    (hhole : ∀ {s' m buf}, Loaded y d s₀ g₀ sz s' g → 0 < length buf → Hole m →
      wp (copyoutWith u m buf) (fun r t => C ∧ r = false ∧ t = s') E s')
    (h : Loaded y d s₀ g₀ sz s g) (hhi : sp.toNat ≤ sz) (hargs : ∀ arg ∈ argv, arg.length < KERNBASE)
    (hmiss : Misses sz argv argc sp) :
    wp (pushArgsWith u argv argc sp ustack)
      (fun r s' => C ∧ r = none ∧ Loaded y d s₀ g₀ sz s' g ∧ Touches d (Inside sz) s s') E s := by
  induction argv generalizing argc sp ustack s with
  | nil => exact hmiss.elim
  | cons arg argv ih =>
    have hlen : (arg ++ [0]).length = arg.length + 1 := length_append
    obtain ⟨hargc, hcases⟩ := hmiss
    rw [pushArgsWith, if_neg (Nat.not_le.mpr hargc), wp_bind]
    generalize hm : (sp - ofNat 32 (arg.length + 1)) &&& ~~~3 = m at hcases ⊢
    rcases hcases with hmissing | ⟨hlo, hlt, hmiss⟩
    · refine wp_imp (hhole h (by omega) hmissing) ?_
      rintro _ _ ⟨hC, rfl, rfl⟩
      exact ⟨hC, rfl, h, .refl⟩
    · have hwithin : Within (copyoutWith (uva2kaStrict d) m (arg ++ [0])) (copyoutWith u m (arg ++ [0])) :=
        copyoutLoopWith_within hu
      refine wp_mono (hwithin.wp (h.copyout_fits hhi (hargs arg (mem_cons_self ..)) hm hlo hlt)) ?_ fun _ => False.elim
      rintro _ s₁ ⟨rfl, h₁, hcopied⟩
      refine wp_imp (ih h₁ (Nat.le_of_lt hlt) (fun a ha => hargs a (mem_cons_of_mem _ ha)) hmiss) ?_
      rintro r s' ⟨hC, hr, h', htouch⟩
      exact ⟨hC, hr, h', (hcopied.touches.mono fun a ha => ha ▸ inside_fromTop h).trans htouch⟩

/-- What the argument phase does. -/
def Pushed (d : Ppn) (sz : Nat) (argv : List (List Byte)) (s : Kernel) (r : Option Word) (s' : Kernel) : Prop :=
  match r with
  | none => Touches d (Inside sz) s s'
  | some esp => Touches d (· = fromTop sz 1) s s' ∧ ∃ ptrs low, ArgStack (userByte s' d) sz esp.toNat argv ptrs low

theorem Loaded.toNat_size (h : Loaded y d s₀ g₀ sz s g) : (ofNat 32 sz).toNat = sz := by
  have htop := h.top
  rw [BitVec.toNat_ofNat]
  exact Nat.mod_eq_of_lt (by simp only [KERNBASE] at htop; omega)

section phase

variable {argv : List (List Byte)} (h : Loaded y d s₀ g₀ sz s g) (hargs : ∀ arg ∈ argv, arg.length < KERNBASE)

include h hargs

theorem Loaded.pushImage (hclear : ¬Misses sz argv 0 (ofNat 32 sz)) :
    wp (pushImageWith (uva2kaStrict d) argv sz) (fun r s' => Loaded y d s₀ g₀ sz s' g ∧ Pushed d sz argv s r s') E
      s := by
  have htop := h.top
  have hsp := h.toNat_size
  rw [pushImageWith, wp_bind]
  refine wp_imp (h.pushArgs (by rw [hsp]; omega) (by rw [hsp]) (Nat.zero_le _) hargs hclear) fun r s₁ h₁ => ?_
  obtain ⟨h₁, hr⟩ := h₁
  cases r with
  | none => exact ⟨h₁, hr⟩
  | some r =>
    obtain ⟨sp, ustack⟩ := r
    obtain ⟨ptrs, hstack, hcount, hlo, htouch, hpiled, -⟩ := hr
    rw [hsp] at hpiled
    rw [nil_append] at hstack
    subst hstack
    have hlow := hpiled.low_le
    dsimp only
    generalize hwords : [0xffffffff, ofNat 32 argv.length, sp - ofNat 32 ((argv.length + 1) * 4)] ++
      ustack ++ [0] = words
    have hlen : (words.flatMap le32).length = (3 + argv.length + 1) * 4 := by
      rw [flatMap_le32_length, ← hwords]
      simp only [length_append, length_cons, length_nil, hpiled.length_eq]
      omega
    simp only [MAXARG] at hcount
    -- the words need less than a page
    have htwo := h.two
    have hsub : ∀ n, n ≤ (3 + argv.length + 1) * 4 → (sp - ofNat 32 n).toNat = sp.toNat - n := by
      intro n hn
      have hnat : (ofNat 32 n).toNat = n := by
        rw [BitVec.toNat_ofNat]
        exact Nat.mod_eq_of_lt (by omega)
      simp only [PGSIZE] at htwo hlo
      rw [BitVec.toNat_sub_of_le (by rw [BitVec.le_def, hnat]; omega), hnat]
    have hesp := hsub _ (Nat.le_refl _)
    have hhole : ¬Hole (sp - ofNat 32 ((3 + argv.length + 1) * 4)) := by
      rw [Hole, hesp]
      simp only [KERNBASE, PHYSTOP] at *
      omega
    rw [wp_bind]
    refine wp_imp (h₁.push (by omega) hlo hlow (by simp only [KERNBASE]; omega) hhole (.inl (by rw [hlen]))) ?_
    rintro r s₂ ⟨h₂, ⟨rfl, htouch₂⟩ | ⟨rfl, hlo₂, hle, -, hcopied⟩⟩
    · refine ⟨h₂, (htouch.mono fun a ha => ?_).trans htouch₂⟩
      rw [ha]
      exact inside_fromTop h
    · clear hhole
      generalize sp - ofNat 32 ((3 + argv.length + 1) * 4) = esp at *
      have hptr : sp - ofNat 32 ((argv.length + 1) * 4) = ofNat 32 (esp.toNat + 12) := by
        apply BitVec.eq_of_toNat_eq
        rw [hsub _ (by omega), BitVec.toNat_ofNat, Nat.mod_eq_of_lt (by simp only [KERNBASE] at htop; omega)]
        omega
      refine ⟨h₂, htouch.trans hcopied.touches, ustack, sp.toNat, hpiled.congr fun va hva hva' => ?_, fun k hk => ?_,
        by simp only [MAXARG]; omega, by omega, hlo₂⟩
      · rw [hcopied.bytes va (by omega) hva', if_neg (by omega)]
      · rw [← hptr, hwords] at hk ⊢
        rw [hcopied.bytes _ (by omega) (by omega), if_pos (by omega), Nat.add_sub_cancel_left]

theorem Loaded.argumentPhase (hclear : ¬Misses sz argv 0 (ofNat 32 sz)) :
    wp (Vm.pushImage cur d argv sz) (fun r s' => Loaded y d s₀ g₀ sz s' g ∧ Pushed d sz argv s r s') E s :=
  wp_mono ((pushImageWith_within uva2kaStrict_within).wp (h.pushImage hargs hclear)) (fun _ _ => id) fun _ => False.elim

theorem Loaded.pushImage_misses (hmiss : Misses sz argv 0 (ofNat 32 sz)) :
    pushImageWith (uva2kaStrict d) argv sz s = .error .trap := by
  refine eq_error_of_wp ?_
  rw [pushImageWith, wp_bind]
  refine wp_imp (h.misses (C := False) (fun _ => .refl) (fun h' hpos hhole => ?_) (by rw [h.toNat_size]) hargs hmiss) ?_
  · exact wp_imp (h'.copyout_hole hpos hhole) fun _ _ => False.elim
  · exact fun _ _ hfalse => hfalse.1.elim

/-- The argument phase that fails where there is no page table is the argument phase exactly if no string takes the
stack pointer there. -/
theorem Loaded.pushImage_iff :
    (pushImageWith (uva2kaStrict d) argv sz s = Vm.pushImage cur d argv sz s ∧
      wp (Vm.pushImage cur d argv sz) (Pushed d sz argv s) (fun _ => False) s) ↔ ¬Misses sz argv 0 (ofNat 32 sz) := by
  constructor
  · rintro ⟨heq, hpushed⟩ hmiss
    exact wp_error hpushed (heq.symm.trans (h.pushImage_misses hargs hmiss))
  · intro hclear
    have hpush : wp (pushImageWith (uva2kaStrict d) argv sz) (Pushed d sz argv s) (fun _ => False) s :=
      wp_imp (h.pushImage hargs hclear) fun _ _ => And.right
    have hwithin : Within (pushImageWith (uva2kaStrict d) argv sz) (Vm.pushImage cur d argv sz) :=
      pushImageWith_within uva2kaStrict_within
    exact ⟨hwithin.eq hpush, hwithin.wp hpush⟩

end phase

/-! ## exec -/

/-- `exec` of the file comes to its arguments, with a new directory and memory of size `sz`. -/
def Loads (y : Layout) (s : Kernel) (ip : Option Inode) (d : Ppn) (sz : Nat) (s' : Kernel) : Prop :=
  ∃ ip' bs s₁, ip = some ip' ∧ readi ip' 0 0 Elfhdr.size = some bs ∧ bs.length = Elfhdr.size ∧
    (Elfhdr.ofBytes bs).magic = ELF_MAGIC ∧ setupkvm y s = .ok (some d, s₁) ∧
    loadImage y ip' d (Elfhdr.ofBytes bs) s₁ = .ok (some sz, s')

theorem Loads.loaded {ip : Option Inode} (h : Loads y s ip d sz s') (hs : Books y s g) :
    sz < KERNBASE ∧ ∃ g', Loaded y d s g sz s' g' := by
  obtain ⟨ip', bs, s₁, -, -, -, -, hsetup, hload⟩ := h
  obtain ⟨g₁, -, -, hloading⟩ := wp_ok (loading_start (E := fun _ => False) hs) hsetup
  obtain ⟨g₂, -, hr⟩ := wp_ok (hloading.loadImage (E := fun _ => False) loaduvm_keeps) hload
  exact ⟨(hr sz rfl).1, g₂, (hr sz rfl).2⟩

/-- No string takes the stack pointer to where there is no page table. -/
def NoneMisses (y : Layout) (s : Kernel) (ip : Option Inode) (argv : List (List Byte)) : Prop :=
  ∀ d sz s', Loads y s ip d sz s' → ¬Misses sz argv 0 (ofNat 32 sz)

/-- Strings below 32 megabytes do not: the pointer stays in the new memory, or wraps to where the devices are. -/
theorem not_misses_of_short {argv : List (List Byte)} (hsz : sz ≤ KERNBASE) (hsp : sp.toNat ≤ KERNBASE)
    (hargs : ∀ arg ∈ argv, arg.length + 4 ≤ 2 ^ 25) : ¬Misses sz argv argc sp := by
  induction argv generalizing argc sp with
  | nil => exact id
  | cons arg argv ih =>
    have hshort := hargs arg (mem_cons_self ..)
    rintro ⟨-, ⟨hlo, hhi⟩ | ⟨-, hlt, hmiss⟩⟩
    · have hnat : (ofNat 32 (arg.length + 1)).toNat = arg.length + 1 := by
        rw [BitVec.toNat_ofNat]
        exact Nat.mod_eq_of_lt (by omega)
      rw [toNat_align, BitVec.toNat_sub, hnat] at hlo hhi
      simp only [KERNBASE, PHYSTOP, DEVSPACE] at *
      omega
    · exact ih (by omega) (fun a ha => hargs a (mem_cons_of_mem _ ha)) hmiss

theorem noneMisses_of_short {ip : Option Inode} {argv : List (List Byte)} (hs : Books y s g)
    (hargs : ∀ arg ∈ argv, arg.length + 4 ≤ 2 ^ 25) : NoneMisses y s ip argv := by
  intro d sz s' hloads
  obtain ⟨hlt, g', hloaded⟩ := hloads.loaded hs
  exact not_misses_of_short hloaded.top (by rw [hloaded.toNat_size]; exact hloaded.top) hargs

/-- What `exec` does up to its commit: it fails and has stored to free pages only, or has a directory with the
arguments. -/
theorem exec_rule {curproc : Task} {ip : Option Inode} {path : List Byte} {argv : List (List Byte)}
    {Q : Bool × Task → Kernel → Prop} (hs : Books y s g)
    (hphase : ∀ d sz s₂ g₂, Loads y s ip d sz s₂ → g.own d = some .free → Loaded y d s g sz s₂ g₂ →
      wp (pushImage curproc.pgdir d argv sz) (fun r s₃ => Loaded y d s g sz s₃ g₂ ∧ Pushed d sz argv s₂ r s₃) E s₂)
    (hfail : ∀ s', (∀ p, g.own p ≠ some .free → s'.mem p = s.mem p) →
      Q (false, { curproc with handlers := resetHandlers curproc.handlers }) s')
    (hdone : ∀ (r : Task) s₂ s₃ g₃, g.own r.pgdir = some .free → Loaded y r.pgdir s g r.sz s₃ g₃ →
      Pushed r.pgdir r.sz argv s₂ (some r.tf.esp) s₃ → wp (freevm y curproc.pgdir) (fun _ s₄ => Q (true, r) s₄) E s₃) :
    wp (exec y curproc ip path argv) Q E s := by
  have hstop := hfail s fun _ _ => rfl
  unfold exec
  dsimp only
  cases ip with
  | none => exact hstop
  | some ip =>
    dsimp only
    cases hread : readi ip 0 0 Elfhdr.size with
    | none => exact hstop
    | some bs =>
      dsimp only
      rw [wp_ite, wp_ite]
      refine ⟨fun _ => hstop, fun hlen => ⟨fun _ => hstop, fun hmagic => ?_⟩⟩
      rw [wp_bind]
      refine wp_imp (wp_run (loading_start hs)) fun r s₁ ⟨hsetup, g₁, hs₁, hr⟩ => ?_
      cases r with
      | none =>
        refine hfail s₁ fun p hp => hr p fun o ho => ⟨?_, id⟩
        rintro rfl
        exact hp ho
      | some d =>
        obtain ⟨hd, hloading⟩ := hr
        have hback : ∀ {s₂ g₂}, Owned y d s g s₂ g₂ → wp (freevm y d) (fun _ s₃ =>
            Q (false, { curproc with handlers := resetHandlers curproc.handlers }) s₃) E s₂ := by
          intro s₂ g₂ h
          exact wp_imp h.freevm fun _ s₃ hframe => hfail s₃ fun p hp => hframe.unchanged hs hd hp
        show wp (image y ip _ d _ argv >>= _) _ _ s₁
        rw [wp_bind, wp_image]
        refine wp_imp (wp_run (hloading.loadImage loaduvm_keeps)) fun r s₂ ⟨hload, g₂, howned, hr⟩ => ?_
        cases r with
        | none =>
          show wp (freevm y d >>= _) _ _ s₂
          rw [wp_bind]
          exact hback howned
        | some sz =>
          have hloads : Loads y s (some ip) d sz s₂ :=
            ⟨ip, bs, s₁, rfl, hread, not_not.mp hlen, not_not.mp hmagic, hsetup, hload⟩
          refine wp_imp (hphase d sz s₂ g₂ hloads hd (hr sz rfl).2) fun r s₃ ⟨hloaded, hpushed⟩ => ?_
          cases r with
          | none =>
            show wp (freevm y d >>= _) _ _ s₃
            rw [wp_bind]
            exact hback hloaded.toOwned
          | some esp =>
            show wp (freevm y curproc.pgdir >>= _) _ _ s₃
            rw [wp_bind]
            exact hdone { curproc with
              handlers := resetHandlers curproc.handlers, pgdir := d, sz := sz, name := (lastElem path).take 15,
              tf := { curproc.tf with eip := (Elfhdr.ofBytes bs).entry, esp := esp } } s₂ s₃ g₂ hd hloaded hpushed

theorem sameSpace_of_other (hs : Books y s g) (hact : ∀ i, g.active d i) (hne : d ≠ cur)
    (hframe : Frame (fun p o => o.Of cur p) s g s') : SameSpace s d s' := by
  have hsafe : ∀ p o, g.own p = some o → o ≠ .free → ¬o.Of cur p → s'.mem p = s.mem p := by
    intro p o hp hfree hof
    refine hframe p fun o' ho' => ?_
    cases hp.symm.trans ho'
    exact ⟨hfree, hof⟩
  intro p hp
  cases hp with
  | dir => exact hsafe d _ (hs.own_dir (hact 0)) nofun hne
  | table ht => exact hsafe p _ (hs.own_table (hact _) ht) nofun hne
  | user ha hp => exact hsafe p _ (own_of_translate hs (hact _) ha hp) nofun hne

theorem Loaded.userByte_eq (h : Loaded y d s₀ g₀ sz s g) (hsame : SameSpace s d s') (hlo : sz - PGSIZE ≤ va)
    (hhi : va < sz) :
    userByte s' d va = userByte s d va := by
  obtain ⟨hbelow, -, hmul, hle⟩ := h.pages
  obtain ⟨q, hq, -⟩ := h.stackPage
  have huses : Uses s d q := by
    refine .user (a := fromTop sz 1) (by rw [fromTop_toNat h.top]; omega) ?_
    rw [translate_eq_entryOf, hq, entryOf_mkPte]
  rw [userByte_stack hmul hq hlo hhi, userByte_stack hmul ((hsame.pte _).trans hq) hlo hhi, hsame q huses]

/-- **The arguments of a new program.** The argument phase finds an entry for all that it looks for, and stores to
pages of the user alone, and if it succeeds to the stack page alone, where the arguments then are; and when `exec`
returns 0 they are there for the new program, when it returns -1 the memory of the process is as it was. All this is so
if and only if no string takes the stack pointer to where there is no page table. -/
theorem exec_argument_stack_iff {s : State} (curproc : Task) (ip : Option Inode) (path : List Byte)
    {argv : List (List Byte)} (hs : WellFormed y s) (hdir : s.dirs curproc.pgdir = true)
    (hargs : ∀ arg ∈ argv, arg.length < KERNBASE) :
    ((∀ d sz s₂, Loads y s.kernel ip d sz s₂ →
        pushImageWith (uva2kaStrict d) argv sz s₂ = pushImage curproc.pgdir d argv sz s₂ ∧
          wp (pushImage curproc.pgdir d argv sz) (Pushed d sz argv s₂) (fun _ => False) s₂) ∧
      wp (exec y curproc ip path argv) (fun r t => (r.1 = false → SameSpace s.kernel curproc.pgdir t) ∧
        (r.1 = true → ∃ ptrs low, ArgStack (userByte t r.2.pgdir) r.2.sz r.2.tf.esp.toNat argv ptrs low))
        (fun _ => False) s.kernel) ↔ NoneMisses y s.kernel ip argv := by
  obtain ⟨g, h⟩ := hs
  have hact := h.all_active hdir
  have hphase : ∀ d sz s₂, Loads y s.kernel ip d sz s₂ →
      (pushImageWith (uva2kaStrict d) argv sz s₂ = pushImage curproc.pgdir d argv sz s₂ ∧
        wp (pushImage curproc.pgdir d argv sz) (Pushed d sz argv s₂) (fun _ => False) s₂ ↔
        ¬Misses sz argv 0 (ofNat 32 sz)) := by
    intro d sz s₂ hloads
    obtain ⟨-, g₂, hloaded⟩ := hloads.loaded h.books
    exact hloaded.pushImage_iff hargs
  refine ⟨fun hall d sz s₂ hloads => (hphase d sz s₂ hloads).mp (hall.1 d sz s₂ hloads), fun hclear =>
    ⟨fun d sz s₂ hloads => (hphase d sz s₂ hloads).mpr (hclear d sz s₂ hloads),
      exec_rule h.books (fun d sz s₂ g₂ hloads _ hloaded => hloaded.argumentPhase hargs (hclear d sz s₂ hloads))
      (fun s' hsame => ⟨fun _ p hp => hsame p ?_, nofun⟩) ?_⟩⟩
  · intro hfree
    exact h.books.not_free_of_uses hact hp ((h.books.owner p .free).mp hfree)
  · rintro r s₂ s₃ g₃ hd hloaded ⟨-, ptrs, low, hstack⟩
    refine wp_imp (freevm_wp hloaded.books fun i => hloaded.others _ i (hact i)) fun _ s₄ ⟨_, _, _, _, _, hframe⟩ =>
      ⟨nofun, fun _ => ?_⟩
    have hne : r.pgdir ≠ curproc.pgdir := by
      intro heq
      rw [heq] at hd
      cases hd.symm.trans (h.books.own_dir (hact 0))
    have hsame := sameSpace_of_other hloaded.books hloaded.active hne hframe
    exact ⟨ptrs, low, hstack.congr fun va hlo hhi => hloaded.userByte_eq hsame hlo hhi⟩

/-- A process with directory `d` and one page of memory. -/
def onePage (d : Ppn) (handlers : Sig → Word) : Task := ⟨d, PGSIZE, .ofBytes [], [], handlers, 0xffffffff, 0⟩

def echoHi : List (List Byte) := [[0x65, 0x63, 0x68, 0x6f], [0x68, 0x69]]

/-- For any file. -/
theorem exec_argument_stack_echo : ∃ d s,
    run (step smallLayout) (start smallLayout fun _ => zeroPage) [.freerange 258 425, .setupkvm,
      .allocuvm d 0 PGSIZE] = some s ∧
    ∀ ip path, (∀ d' sz s₂, Loads smallLayout s.kernel ip d' sz s₂ →
        pushImageWith (uva2kaStrict d') echoHi sz s₂ = pushImage d d' echoHi sz s₂ ∧
          wp (pushImage d d' echoHi sz) (Pushed d' sz echoHi s₂) (fun _ => False) s₂) ∧
      wp (exec smallLayout (onePage d fun _ => SIG_DFL) ip path echoHi)
        (fun r t => (r.1 = false → SameSpace s.kernel d t) ∧
        (r.1 = true → ∃ ptrs low, ArgStack (userByte t r.2.pgdir) r.2.sz r.2.tf.esp.toNat echoHi ptrs low))
        (fun _ => False) s.kernel := by
  obtain ⟨d, s, g, hrun, h, hdirs, -⟩ := one_page_process fun _ => zeroPage
  exact ⟨d, s, hrun, fun ip path => (exec_argument_stack_iff (onePage d fun _ => SIG_DFL) ip path ⟨g, h⟩ hdirs
    (by decide)).mpr (noneMisses_of_short h.books (by decide))⟩

/-! ## A string of 48 megabytes -/

/-- An ELF header without program headers: the stack is the second page. -/
def noSegments : Inode := fun _ _ _ => some ([0x7f, 0x45, 0x4c, 0x46] ++ replicate 48 0)

theorem loadImage_noSegments (hs : Books y s g) (hact : ∀ i, g.active d i) (htab : tables s d = kernelTables)
    (hfree : 4 ≤ g.free.length) :
    wp (loadImage y noSegments d ⟨ELF_MAGIC, 0, 0, 0⟩) (fun r _ => r = some (2 * PGSIZE)) (fun _ => False) s := by
  have hnone : ∀ b : Vpn, b.toNat < 2 → translate s d b = none := by
    intro b hb
    rw [translate, entry_eq_none htab (.inl (show b.toNat / 1024 < 512 by omega))]
    rfl
  show wp (allocuvm y d 0 (2 * PGSIZE) >>= _) _ _ s
  rw [wp_bind]
  refine wp_imp (allocuvm_enough hs hact (Nat.zero_le _) (by decide) hfree fun b _ hb => hnone b hb) ?_
  rintro _ s₁ ⟨rfl, g₁, -, -, htab₁⟩
  obtain ⟨t, ht⟩ := mem_tables.mp ((htab₁ 0).mpr (.inr ⟨0, Nat.le_refl 0, by decide, rfl⟩))
  rw [if_neg (by decide), wp_bind, wp_clearpteu ht]
  rfl

/-- A process of 64 megabytes calls `exec` with a string of 48 megabytes: `uva2ka` does not find a page table. -/
theorem exec_missing_entry : ∃ d s d' s₂,
    run (step smallLayout) (start smallLayout fun _ => zeroPage) [.freerange 258 57344, .setupkvm,
      .allocuvm d 0 0x4000000] = some s ∧
      Loads smallLayout s.kernel (some noSegments) d' (2 * PGSIZE) s₂ ∧
      pushImageWith (uva2kaStrict d') [replicate 0x2ffffff 1] (2 * PGSIZE) s₂ = .error .trap := by
  have hpages : below 0x4000000 = 16384 := by decide
  obtain ⟨d, s, g, hrun, h, -, -, -, hcount, -⟩ := grown_dir (fun _ => zeroPage) (show 323 + 57021 ≤ 57344 by decide)
    (show 0x4000000 < KERNBASE by decide) (by decide)
  have hcard : (tables s.kernel d).card ≤ 1024 := card_finset_fin_le _
  obtain ⟨r, s₁, hsetup, g₁, hs₁, hr⟩ := wp_total (setupkvm_wp h.books)
  cases r with
  | none =>
    have := hr.1
    omega
  | some d' =>
    obtain ⟨-, -, hact, -, htab, hlen, -⟩ := hr
    obtain ⟨_, s₂, hload, rfl⟩ := wp_total (loadImage_noSegments hs₁ (fun i => hact ▸ .inl rfl) htab (by omega))
    have hloads : Loads smallLayout s.kernel (some noSegments) d' (2 * PGSIZE) s₂ :=
      ⟨noSegments, _, s₁, rfl, rfl, by decide, by decide, hsetup, hload⟩
    obtain ⟨-, g₂, hloaded⟩ := hloads.loaded h.books
    have hlength : (replicate 0x2ffffff (1 : Byte)).length = 0x2ffffff := length_replicate
    refine ⟨d, s, d', s₂, hrun, hloads, ?_⟩
    generalize replicate 0x2ffffff (1 : Byte) = arg at hlength ⊢
    refine hloaded.pushImage_misses (by simp [hlength, KERNBASE]) ?_
    -- the stack pointer is 8 kilobytes less 48 megabytes
    rw [Misses, hlength]
    exact ⟨by decide, .inl ⟨by decide, by decide⟩⟩

end Xv6.Vm
