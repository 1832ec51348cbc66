import Mathlib
import Xv6.Command
import Xv6.Transition
import Xv6.Vm

/- The allocator of user programs (umalloc.c).

   Memory is read and written in units of a `Header`, 8 bytes: a function from addresses to headers. Addresses
   and sizes are numbers below 2^32, and arithmetic on them is that of `uint`.

   1. `sbrk`, as sys_sbrk and growproc answer it: the break moves, or the call returns -1.
   2. `free`, `morecore`, `malloc`. The two searches along the list count down from `rounds`; to reach 0 is
      an error (`Stop.diverges`), and so is an access to memory that the process does not have
      (`Stop.fault`).
   3. A program that calls them (`step`), frees what it has been given, and stores to it.

   `base`, the header that is always on the list, is a static variable: its address is where the linker has put
   it (`Image`).

   Correspondence (C ↔ Lean):
     `p->s.ptr`, `p->s.size`   ↔ `(mem p).ptr`, `(mem p).size`
     `freep`                   ↔ `Heap.freep`, 0 for the null pointer
     `p + n`                   ↔ `plus`
     `myproc()->sz`            ↔ `Heap.sz`
     `0` of `malloc`, `(char*)-1` of `sbrk` ↔ `none` -/
namespace Xv6.Umalloc
open Command Vm

structure Header where
  ptr : Nat
  size : Nat
  deriving DecidableEq, Inhabited

structure Heap where
  mem : Nat → Header
  freep : Nat
  sz : Nat
  /-- Whether the kernel has the pages to move it up. -/
  room : Bool

/-- The program as `exec` has loaded it. -/
structure Image where
  base : Nat
  size : Nat
  base_pos : 0 < base
  fits : base + 8 ≤ size
  aligned : size % Vm.PGSIZE = 0
  user : size < KERNBASE

inductive Stop where
  | fault
  | diverges
  deriving DecidableEq

abbrev M (α : Type) := Cmd Heap Stop α

/-! ## Memory -/

/-- The process has the page of the header at `a`. -/
def Heap.Mapped (h : Heap) (a : Nat) : Prop := a + 8 ≤ (h.sz + Vm.PGSIZE - 1) / Vm.PGSIZE * Vm.PGSIZE

instance (h : Heap) (a : Nat) : Decidable (h.Mapped a) := inferInstanceAs (Decidable (_ ≤ _))

def load (a : Nat) : M Header := do
  if ← gets fun h => decide (h.Mapped a) then gets fun h => h.mem a else fail .fault

def Heap.set (h : Heap) (a : Nat) (x : Header) : Heap := { h with mem := Function.update h.mem a x }

def setPtr (a v : Nat) : M Unit := do
  let x ← load a
  modify fun h => h.set a { x with ptr := v }

def setSize (a v : Nat) : M Unit := do
  let x ← load a
  modify fun h => h.set a { x with size := v }

def setFreep (p : Nat) : M Unit := modify fun h => { h with freep := p }

/-- `p + n`, for a pointer to a header. -/
def plus (p n : Nat) : Nat := (p + 8 * n) % 2 ^ 32

/-- A `uint` as the kernel takes it for an `int`. -/
def toInt (n : Nat) : Int := if n < 2 ^ 31 then n else (n : Int) - 2 ^ 32

/-- The new pages are zero. -/
def Heap.grow (h : Heap) (newsz : Nat) : Heap :=
  { h with
    mem := fun a => if (h.sz + Vm.PGSIZE - 1) / Vm.PGSIZE * Vm.PGSIZE ≤ a ∧ a < newsz then ⟨0, 0⟩ else h.mem a
    sz := newsz }

def sbrk (n : Int) : M (Option Nat) := do
  let sz ← gets Heap.sz
  let newsz := (((sz : Int) + n) % 2 ^ 32).toNat
  if 0 < n then
    if KERNBASE ≤ newsz then pure none
    -- `allocuvm` returns the old size.
    else if newsz < sz then pure (some sz)
    else if ← gets Heap.room then do
      modify fun h => h.grow newsz
      pure (some sz)
    else pure none
  else if n < 0 then
    -- `deallocuvm` returns the old size.
    if sz ≤ newsz then pure (some sz)
    -- The program itself is gone.
    else if newsz = 0 then fail .fault
    else do
      modify fun h => { h with sz := newsz }
      pure (some sz)
  else pure (some sz)

/-! ## umalloc.c -/

/-- More than there are headers in two rounds of the list. -/
def rounds : Nat := 2 ^ 30

/-- The loop of `free`: the header after which `bp` belongs. -/
def seek (bp : Nat) : Nat → Nat → M Nat
  | 0, _ => fail .diverges
  | fuel + 1, p => do
    let x ← load p
    if bp > p ∧ bp < x.ptr then pure p
    -- At the end of the arena, or there is only one block.
    else if p ≥ x.ptr ∧ (bp > p ∨ bp < x.ptr) then pure p
    else seek bp fuel x.ptr

def free (ap : Nat) : M Unit := do
  let bp := (ap + 2 ^ 32 - 8) % 2 ^ 32
  let p ← seek bp rounds (← gets Heap.freep)
  let q := (← load p).ptr
  if plus bp (← load bp).size = q then do
    setSize bp (((← load bp).size + (← load q).size) % 2 ^ 32)
    setPtr bp (← load q).ptr
  else setPtr bp q
  if plus p (← load p).size = bp then do
    setSize p (((← load p).size + (← load bp).size) % 2 ^ 32)
    setPtr p (← load bp).ptr
  else setPtr p bp
  setFreep p

/-- `none` for the null pointer. -/
def morecore (nu : Nat) : M (Option Nat) := do
  let nu := if nu < 4096 then 4096 else nu
  match ← sbrk (toInt (nu * 8 % 2 ^ 32)) with
  | none => pure none
  | some hp => do
    setSize hp nu
    free (plus hp 1)
    let p ← gets Heap.freep
    pure (some p)

def look (nunits : Nat) : Nat → Nat → Nat → M (Option Nat)
  | 0, _, _ => fail .diverges
  | fuel + 1, prevp, p => do
    let x ← load p
    if x.size ≥ nunits then do
      if x.size = nunits then do
        setPtr prevp x.ptr
        setFreep prevp
        pure (some (plus p 1))
      else do
        -- The tail of the block.
        setSize p (x.size - nunits)
        let p := plus p (x.size - nunits)
        setSize p nunits
        setFreep prevp
        pure (some (plus p 1))
    else if p = (← gets Heap.freep) then
      match ← morecore nunits with
      | none => pure none
      | some p => do
        let x ← load p
        look nunits fuel p x.ptr
    else look nunits fuel p x.ptr

/-- How many headers a request needs. -/
def unitsOf (nbytes : Nat) : Nat := (nbytes + 8 - 1) % 2 ^ 32 / 8 + 1

variable (im : Image)

def malloc (nbytes : Nat) : M (Option Nat) := do
  if (← gets Heap.freep) = 0 then do
    setFreep im.base
    setPtr im.base im.base
    setSize im.base 0
  let prevp ← gets Heap.freep
  let x ← load prevp
  look (unitsOf nbytes) rounds prevp x.ptr

/-! ## A program -/

structure Block where
  ap : Nat
  nbytes : Nat
  deriving DecidableEq

structure State where
  heap : Heap
  live : List Block

inductive Label where
  /-- With the kernel's answer to `sbrk`, if it is asked. -/
  | malloc (nbytes : Nat) (room : Bool)
  | free (b : Block)
  /-- The program stores to 8 bytes of a block. -/
  | write (b : Block) (i : Nat) (x : Header)

def step (s : State) : Label → Option State
  | .malloc nbytes room =>
    if nbytes < 2 ^ 32 then
      match malloc im nbytes { s.heap with room := room } with
      | .ok (some ap, h) => some ⟨h, ⟨ap, nbytes⟩ :: s.live⟩
      | .ok (none, h) => some ⟨h, s.live⟩
      | .error _ => none
    else none
  | .free b =>
    if b ∈ s.live then
      match free b.ap s.heap with
      | .ok (_, h) => some ⟨h, s.live.erase b⟩
      | .error _ => none
    else none
  | .write b i x =>
    if b ∈ s.live ∧ 8 * i < b.nbytes then some { s with heap := s.heap.set (b.ap + 8 * i) x } else none

def start (mem : Nat → Header) : State := ⟨⟨mem, 0, im.size, true⟩, []⟩

end Xv6.Umalloc
