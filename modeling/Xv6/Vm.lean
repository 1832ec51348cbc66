import Mathlib
import Xv6.Bits
import Xv6.Command
import Xv6.Transition

/- Physical pages and page tables (kalloc.c, vm.c), and what proc.c does with them.

   Physical memory is a function from page numbers to pages of 1024 words. The free list
   goes through the first words of the free pages; a page directory and a page table are
   pages of entries, each with the number of a page in its upper 20 bits. A pointer that the
   kernel has to a page is the number of the page, and a page-aligned virtual address is
   the number of a virtual page. Sizes are as in C, `uint`.

   1. kalloc.c: `kfree`, `kalloc`, `freerange`.
   2. vm.c: `walkpgdir`, `mappages`, `setupkvm`, `allocuvm`, `deallocuvm`, `freevm`, `copyuvm`.
   3. `growproc` and `fork` (proc.c), as far as they allocate and free pages.
   4. The calls in any order (`step`), with the pages and the page directories that the callers
      have been given and have not given back.

   What `cprintf` prints, and stores by the hardware to the accessed and dirty bits, are left
   out. `data` and `end` are where the linker has put them (`Layout`).

   Correspondence (C ↔ Lean):
     `kmem.freelist`, `r->next`        ↔ `Kernel.freelist`, word 0 of the page (`nextOf`)
     `PTE_P`, `PTE_ADDR`, `PTE_FLAGS`  ↔ `present`, `addr`, `flags`
     `pa | perm | PTE_P`               ↔ `mkPte`
     `&pgtab[PTX(va)]`                 ↔ a page and an index
     `0` of `kalloc`, `walkpgdir`, `setupkvm`, `copyuvm` ↔ `none`
     `-1` and `0` of `mappages`        ↔ `false` and `true` -/
namespace Xv6.Vm
open Function Bits Command
open BitVec (ofNat)

def PGSIZE : Nat := 4096
def KERNBASE : Nat := 0x80000000
def EXTMEM : Nat := 0x100000
def PHYSTOP : Nat := 0xE000000
def DEVSPACE : Nat := 0xFE000000

/-- A physical page, and a virtual one. -/
abbrev Ppn := BitVec 20
abbrev Vpn := BitVec 20

abbrev Index := Fin 1024

instance neZero_index : NeZero 1024 := ⟨by decide⟩

abbrev Page := Index → Word

/-- Where the kernel's data begins, in pages, and the first page behind the kernel. -/
structure Layout where
  dataPage : Nat
  endPage : Nat
  text : EXTMEM / PGSIZE < dataPage
  data : dataPage < endPage
  ram : endPage ≤ PHYSTOP / PGSIZE

structure Kernel where
  mem : Ppn → Page
  freelist : Option Ppn

inductive Stop where
  /-- `kfree` -/
  | kfree
  /-- `remap` -/
  | remap
  /-- `PHYSTOP too high` -/
  | phystop
  /-- `copyuvm: pte should exist` -/
  | pteMissing
  /-- `copyuvm: page not present` -/
  | notPresent
  /-- `loaduvm: addr must be page aligned` -/
  | loadAlign
  /-- `loaduvm: address should exist` -/
  | loadMissing
  /-- `clearpteu` -/
  | clearpteu
  /-- The kernel takes a page fault. -/
  | trap
  /-- A loop does not end. -/
  | diverges
  deriving DecidableEq

abbrev M (α : Type) := Cmd Kernel Stop α

/-! ## Entries -/

def present (w : Word) : Bool := w.getLsbD 0

def addr (w : Word) : Ppn := w.extractLsb' 12 20

def flags (w : Word) : BitVec 12 := w.extractLsb' 0 12

def mkPte (p : Ppn) (perm : BitVec 12) : Word := (p ++ perm) ||| 1#32

/-- `PTE_W`, and `PTE_W|PTE_U` -/
def PTE_W : BitVec 12 := 2
def PTE_WU : BitVec 12 := 6

def pdx (a : Vpn) : Index := ⟨a.toNat / 1024, by have := a.isLt; omega⟩

def ptx (a : Vpn) : Index := ⟨a.toNat % 1024, by omega⟩

/-! ## kalloc.c -/

/-- A pointer to a page, as a word: `P2V` of its address. -/
def pointer : Option Ppn → Word
  | none => 0
  | some p => ofNat 32 KERNBASE + (p ++ 0#12)

/-- The page that a word points to. -/
def pointee (w : Word) : Option Ppn := if w = 0 then none else some ((w - ofNat 32 KERNBASE).extractLsb' 12 20)

/-- `*p = w`, for word `i` of a page. -/
def store (p : Ppn) (i : Index) (w : Word) : M Unit :=
  modify fun s => { s with mem := update s.mem p (update (s.mem p) i w) }

/-- `memset` or `memmove` of a whole page. -/
def setPage (p : Ppn) (x : Page) : M Unit := modify fun s => { s with mem := update s.mem p x }

/-- Fill with junk to catch dangling refs. -/
def junk : Page := fun _ => 0x01010101

def zeroPage : Page := fun _ => 0

variable (y : Layout)

/-- A page that the allocator may have: `v >= end` and `V2P(v) < PHYSTOP`. -/
def Layout.IsRam (p : Ppn) : Prop := y.endPage ≤ p.toNat ∧ p.toNat < PHYSTOP / PGSIZE

instance (p : Ppn) : Decidable (y.IsRam p) := inferInstanceAs (Decidable (_ ∧ _))

def kfree (p : Ppn) : M Unit :=
  if y.IsRam p then do
    setPage p junk
    let r ← gets Kernel.freelist
    store p 0 (pointer r)
    modify fun s => { s with freelist := some p }
  else fail .kfree

def kalloc : M (Option Ppn) := do
  let r ← gets Kernel.freelist
  match r with
  | none => pure none
  | some p => do
    modify fun s => { s with freelist := pointee (s.mem p 0) }
    pure (some p)

def freerange (lo hi : Nat) : M Unit := each (fun p => kfree y (ofNat 20 p)) (List.range' lo (hi - lo))

/-! ## vm.c -/

/-- The entry of a virtual page: a page table and an index in it. -/
def walkpgdir (pgdir : Ppn) (a : Vpn) (alloc : Bool) : M (Option (Ppn × Index)) := do
  let pde ← gets fun s => s.mem pgdir (pdx a)
  if present pde then pure (some (addr pde, ptx a))
  else if alloc then do
    match ← kalloc with
    | none => pure none
    | some pgtab => do
      -- Make sure all those PTE_P bits are zero.
      setPage pgtab zeroPage
      store pgdir (pdx a) (mkPte pgtab PTE_WU)
      pure (some (pgtab, ptx a))
  else pure none

def mapLoop (pgdir : Ppn) (perm : BitVec 12) : Nat → Vpn → Ppn → M Bool
  | 0, _, _ => pure true
  | n + 1, a, pa => do
    match ← walkpgdir pgdir a true with
    | none => pure false
    | some (pgtab, i) => do
      let pte ← gets fun s => s.mem pgtab i
      if present pte then fail .remap
      else do
        store pgtab i (mkPte pa perm)
        mapLoop pgdir perm n (a + 1) (pa + 1)

/-- From the page of `va` to the last, which is that of `va + size - 1`. -/
def mappages (pgdir : Ppn) (va size : Word) (pa : Ppn) (perm : BitVec 12) : M Bool :=
  let a : Vpn := va.extractLsb' 12 20
  let last : Vpn := (va + size - 1).extractLsb' 12 20
  mapLoop pgdir perm ((last - a).toNat + 1) a pa

/-- `PGROUNDUP(sz)`, in pages. -/
def roundup (sz : Nat) : Nat := (sz + PGSIZE - 1) % 2 ^ 32 / PGSIZE

/-- How many pages begin below `sz`. -/
def below (sz : Nat) : Nat := (sz + PGSIZE - 1) / PGSIZE

def deallocLoop (pgdir : Ppn) (top : Nat) : Nat → Nat → M Unit
  | 0, v => if v < top then fail .diverges else pure ()
  | fuel + 1, v =>
    if v < top then do
      match ← walkpgdir pgdir (ofNat 20 v) false with
      -- To the first page of the next page table.
      | none => deallocLoop pgdir top fuel ((v / 1024 + 1) * 1024 % 2 ^ 20)
      | some (pgtab, i) => do
        let pte ← gets fun s => s.mem pgtab i
        if present pte then do
          if addr pte = 0 then fail .kfree
          kfree y (addr pte)
          store pgtab i 0
        deallocLoop pgdir top fuel (v + 1)
    else pure ()

def deallocuvm (pgdir : Ppn) (oldsz newsz : Nat) : M Nat :=
  if oldsz ≤ newsz then pure oldsz
  else do
    deallocLoop y pgdir (below oldsz) (below oldsz) (roundup newsz)
    pure newsz

def freevm (pgdir : Ppn) : M Unit := do
  let _ ← deallocuvm y pgdir KERNBASE 0
  each (fun i => do
    let pde ← gets fun s => s.mem pgdir i
    if present pde then kfree y (addr pde)) (List.finRange 1024)
  kfree y pgdir

structure Kmap where
  virt : Nat
  physStart : Nat
  physEnd : Nat
  perm : BitVec 12

/-- `V2P(data)` -/
def Layout.data' : Nat := y.dataPage * PGSIZE

def kmap : List Kmap :=
  [⟨KERNBASE, 0, EXTMEM, PTE_W⟩,
   ⟨KERNBASE + EXTMEM, EXTMEM, y.data', 0⟩,
   ⟨KERNBASE + y.data', y.data', PHYSTOP, PTE_W⟩,
   ⟨DEVSPACE, DEVSPACE, 0, PTE_W⟩]

def setupLoop (pgdir : Ppn) : List Kmap → M (Option Ppn)
  | [] => pure (some pgdir)
  | k :: ks => do
    if ← mappages pgdir (ofNat 32 k.virt) (ofNat 32 k.physEnd - ofNat 32 k.physStart)
        (ofNat 20 (k.physStart / PGSIZE)) k.perm then
      setupLoop pgdir ks
    else do
      freevm y pgdir
      pure none

def setupkvm : M (Option Ppn) := do
  match ← kalloc with
  | none => pure none
  | some pgdir => do
    setPage pgdir zeroPage
    if DEVSPACE < KERNBASE + PHYSTOP then fail .phystop
    setupLoop y pgdir (kmap y)

/-- `mappages` for one page of user memory. -/
def mapPage (pgdir : Ppn) (v : Nat) (mem : Ppn) (perm : BitVec 12) : M Bool :=
  mappages pgdir (ofNat 32 (v * PGSIZE)) (ofNat 32 PGSIZE) mem perm

/-- The loop of `allocuvm`, for so many pages from `v` on. -/
def allocLoop (pgdir : Ppn) (oldsz newsz : Nat) : Nat → Nat → M Nat
  | 0, _ => pure newsz
  | n + 1, v => do
    match ← kalloc with
    | none => do
      let _ ← deallocuvm y pgdir newsz oldsz
      pure 0
    | some mem => do
      setPage mem zeroPage
      if ← mapPage pgdir v mem PTE_WU then allocLoop pgdir oldsz newsz n (v + 1)
      else do
        let _ ← deallocuvm y pgdir newsz oldsz
        kfree y mem
        pure 0

def allocuvm (pgdir : Ppn) (oldsz newsz : Nat) : M Nat :=
  if KERNBASE ≤ newsz then pure 0
  else if newsz < oldsz then pure oldsz
  else allocLoop y pgdir oldsz newsz (below newsz - roundup oldsz) (roundup oldsz)

/-- What `copyuvm` returns, and where it has failed. -/
inductive Copied where
  | made (d : Ppn)
  /-- `setupkvm` failed, or `kalloc` for a page of user memory. -/
  | noPage
  /-- `mappages` failed, for a page that `kalloc` had returned. -/
  | noTable (mem : Ppn)
  deriving DecidableEq

/-- The loop of `copyuvm`, for so many pages from `v` on. -/
def copyLoop (pgdir d : Ppn) : Nat → Nat → M Copied
  | 0, _ => pure (.made d)
  | n + 1, v => do
    match ← walkpgdir pgdir (ofNat 20 v) false with
    | none => fail .pteMissing
    | some (pgtab, i) => do
      let pte ← gets fun s => s.mem pgtab i
      if present pte then
        match ← kalloc with
        | none => do
          freevm y d
          pure .noPage
        | some mem => do
          let x ← gets fun s => s.mem (addr pte)
          setPage mem x
          if ← mapPage d v mem (flags pte) then copyLoop pgdir d n (v + 1)
          else do
            freevm y d
            pure (.noTable mem)
      else fail .notPresent

def copyuvm (pgdir : Ppn) (sz : Nat) : M Copied := do
  match ← setupkvm y with
  | none => pure .noPage
  | some d => copyLoop y pgdir d (below sz) 0

/-! ## proc.c -/

/-- `growproc`: the new size, or `none` for `-1`. -/
def growproc (pgdir : Ppn) (sz : Nat) (n : Int) : M (Option Nat) := do
  let newsz := (((sz : Int) + n) % 2 ^ 32).toNat
  if 0 < n then
    let sz ← allocuvm y pgdir sz newsz
    pure (if sz = 0 then none else some sz)
  else if n < 0 then
    let sz ← deallocuvm y pgdir sz newsz
    pure (if sz = 0 then none else some sz)
  else pure (some sz)

inductive Forked where
  /-- `allocproc` finds no slot, or has no page for the kernel stack. -/
  | noProc
  /-- `copyuvm` fails. -/
  | noCopy (c : Copied)
  | child (kstack d : Ppn)

/-- `fork`, with what `allocproc` stores to the kernel stack, if there is a slot in the process table. -/
def fork (slot : Bool) (stack : Page → Page) (pgdir : Ppn) (sz : Nat) : M Forked :=
  if slot then do
    match ← kalloc with
    | none => pure .noProc
    | some kstack => do
      let x ← gets fun s => s.mem kstack
      setPage kstack (stack x)
      match ← copyuvm y pgdir sz with
      | .made d => pure (.child kstack d)
      | c => do
        kfree y kstack
        pure (.noCopy c)
  else pure .noProc

/-! ## Calls in any order -/

structure State where
  kernel : Kernel
  /-- Page directories that have been made and not freed. -/
  dirs : Ppn → Bool
  /-- Pages that the callers have and may free: at boot all of them. -/
  held : Ppn → Bool

inductive Label where
  | kalloc
  | kfree (p : Ppn)
  | freerange (lo hi : Nat)
  | setupkvm
  | allocuvm (d : Ppn) (oldsz newsz : Nat)
  | deallocuvm (d : Ppn) (oldsz newsz : Nat)
  | copyuvm (d : Ppn) (sz : Nat)
  | freevm (d : Ppn)
  | store (p : Ppn) (x : Page)
  | write (d : Ppn) (v : Vpn) (x : Page)

/-- The state after `m`, unless it panics. -/
def State.after {α : Type} (s : State) (m : M α) (f : α → State → State) : Option State :=
  match m s.kernel with
  | .ok (a, t) => some (f a { s with kernel := t })
  | .error _ => none

/-- The page of user memory at `v`, if one is mapped there. -/
def userPage (s : Kernel) (d : Ppn) (v : Vpn) : Option Ppn :=
  if present (s.mem d (pdx v)) ∧ (pdx v).val < 512 ∧ present (s.mem (addr (s.mem d (pdx v))) (ptx v)) then
    some (addr (s.mem (addr (s.mem d (pdx v))) (ptx v)))
  else none

/-- Pages are freed by who holds them, directories are used and freed while they exist, and all sizes are at
most `KERNBASE`. -/
def step (s : State) : Label → Option State
  | .kalloc => s.after kalloc fun r s =>
      match r with
      | some p => { s with held := update s.held p true }
      | none => s
  | .kfree p => if s.held p then s.after (kfree y p) fun _ s => { s with held := update s.held p false } else none
  | .freerange lo hi =>
    if hi ≤ 2 ^ 20 ∧ ∀ p ∈ List.range' lo (hi - lo), s.held (ofNat 20 p) then
      s.after (freerange y lo hi) fun _ s =>
        { s with held := fun p => s.held p && (decide (p.toNat < lo) || decide (hi ≤ p.toNat)) }
    else none
  | .setupkvm => s.after (setupkvm y) fun r s =>
      match r with
      | some d => { s with dirs := update s.dirs d true }
      | none => s
  | .allocuvm d oldsz newsz =>
    if s.dirs d ∧ oldsz ≤ KERNBASE ∧ newsz ≤ KERNBASE then s.after (allocuvm y d oldsz newsz) fun _ s => s else none
  | .deallocuvm d oldsz newsz =>
    if s.dirs d ∧ oldsz ≤ KERNBASE ∧ newsz ≤ KERNBASE then s.after (deallocuvm y d oldsz newsz) fun _ s => s else none
  | .copyuvm d sz =>
    if s.dirs d ∧ sz ≤ KERNBASE then
      s.after (copyuvm y d sz) fun r s =>
        match r with
        | .made d' => { s with dirs := update s.dirs d' true }
        | _ => s
    else none
  | .freevm d => if s.dirs d then s.after (freevm y d) fun _ s => { s with dirs := update s.dirs d false } else none
  | .store p x => if s.held p then s.after (setPage p x) fun _ s => s else none
  | .write d v x =>
    if s.dirs d then
      match userPage s.kernel d v with
      | some p => s.after (setPage p x) fun _ s => s
      | none => none
    else none

def start (mem : Ppn → Page) : State where
  kernel := ⟨mem, none⟩
  dirs := fun _ => false
  held := fun p => decide (y.IsRam p)

end Xv6.Vm
