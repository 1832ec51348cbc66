import Xv6.Signal
import Xv6.VmCopy

/- `exec` (exec.c).

   1. The functions of vm.c that fill the new memory: `loaduvm`, `clearpteu`, `uva2ka`, `copyout`. When there is no page
      table for an address, `uva2ka` takes the word at address 0 for the entry: that is memory of the process.
   2. `exec`: a new page directory, the segments of the program, the stack with the arguments, and then the
      process is changed. The one thing that it does first is to reset the signal handlers.

   The file is given by what the calls of `readi` return, in turn (`Inode`), so that it may be a device; the arguments
   by the bytes before their NULs, which are in memory that does not change during the call.

   Correspondence (C ↔ Lean):
     `struct elfhdr`, `struct proghdr`  ↔ `Elfhdr`, `Proghdr`, with the fields that are read
     `curproc`                          ↔ `Task`, and the pages of `Task.pgdir`
     the loop over the segments, that over the arguments ↔ `loadSegments`, `pushArgs`
     from there to the commit           ↔ `image`
     `-1` and `0`                       ↔ `false` and `true`, or `none` and `some` inside -/
namespace Xv6.Vm
open Bits Command
open BitVec (ofNat)

/-! ## The program file -/

/-- What the `k`th call of `readi`, with an offset and a count, returns: `none` for -1. -/
abbrev Inode := Nat → Word → Word → Option (List Byte)

/-- `readi(ip, dst, off, n)`: the bytes that go to `dst`. -/
def readi (ip : Inode) (k : Nat) (off : Word) (n : Nat) : Option (List Byte) :=
  (ip k off (ofNat 32 n)).map (List.take n)

structure Elfhdr where
  magic : Word
  entry : Word
  phoff : Word
  phnum : Half

def Elfhdr.size : Nat := 52

def Elfhdr.ofBytes (bs : List Byte) : Elfhdr := ⟨rd32 bs 0, rd32 bs 24, rd32 bs 28, rd16 bs 44⟩

structure Proghdr where
  type : Word
  off : Word
  vaddr : Word
  filesz : Word
  memsz : Word

def Proghdr.size : Nat := 32

def Proghdr.ofBytes (bs : List Byte) : Proghdr := ⟨rd32 bs 0, rd32 bs 4, rd32 bs 8, rd32 bs 16, rd32 bs 20⟩

def ELF_MAGIC : Word := 0x464C457F
def ELF_PROG_LOAD : Word := 1
def MAXARG : Nat := 32

/-! ## vm.c -/

/-- Bytes of a page, from `off` on. -/
def patch (x : Page) (off : Nat) (bs : List Byte) : Page := fun i =>
  let byte := fun k => if off ≤ 4 * i.val + k ∧ 4 * i.val + k < off + bs.length then bs.getD (4 * i.val + k - off) 0
    else (x i).extractLsb' (8 * k) 8
  byte 3 ++ byte 2 ++ byte 1 ++ byte 0

variable (y : Layout) (ip : Inode)

/-- The loop of `loaduvm`, for so many pages from `a` on. The result is the number of the next call of `readi`. -/
def loadLoop (pgdir : Ppn) : Nat → Vpn → Word → Nat → Nat → M (Option Nat)
  | 0, _, _, _, k => pure (some k)
  | n + 1, a, offset, left, k => do
    match ← walkpgdir pgdir a false with
    | none => fail .loadMissing
    | some (pgtab, i) => do
      let pa ← gets fun s => addr (s.mem pgtab i)
      match readi ip k offset (min left PGSIZE) with
      | none => pure none
      | some bs => do
        let x ← gets fun s => s.mem pa
        setPage pa (patch x 0 bs)
        if bs.length = min left PGSIZE then loadLoop pgdir n (a + 1) (offset + ofNat 32 PGSIZE) (left - PGSIZE) (k + 1)
        else pure none

def loaduvm (pgdir : Ppn) (va offset : Word) (sz k : Nat) : M (Option Nat) :=
  if va.toNat % PGSIZE ≠ 0 then fail .loadAlign
  else loadLoop ip pgdir (below sz) (va.extractLsb' 12 20) offset sz k

def PTE_U : Word := 4

def clearpteu (pgdir : Ppn) (a : Vpn) : M Unit := do
  match ← walkpgdir pgdir a false with
  | none => fail .clearpteu
  | some (pgtab, i) => do
    let pte ← gets fun s => s.mem pgtab i
    store pgtab i (pte &&& ~~~PTE_U)

/-- With the directory of the current process, which is the one that the CPU uses. -/
def uva2ka (cur pgdir : Ppn) (a : Vpn) : M (Option Ppn) := do
  let pte ← match ← walkpgdir pgdir a false with
    | some (pgtab, i) => gets fun s => s.mem pgtab i
    -- A null pointer.
    | none => do
      match ← gets fun s => translate s cur 0 with
      | some p => gets fun s => s.mem p 0
      | none => fail .trap
  pure (if present pte ∧ pte &&& PTE_U ≠ 0 then some (addr pte) else none)

def copyoutLoop (cur pgdir : Ppn) : Nat → Nat → List Byte → M Bool
  | _, _, [] => pure true
  | 0, _, _ :: _ => fail .diverges
  | fuel + 1, va, buf@(_ :: _) => do
    match ← uva2ka cur pgdir (ofNat 20 (va / PGSIZE)) with
    | none => pure false
    | some pa0 => do
      let n := PGSIZE - va % PGSIZE
      let x ← gets fun s => s.mem pa0
      setPage pa0 (patch x (va % PGSIZE) (buf.take n))
      copyoutLoop cur pgdir fuel ((va / PGSIZE + 1) * PGSIZE % 2 ^ 32) (buf.drop n)

def copyout (cur pgdir : Ppn) (va : Word) (buf : List Byte) : M Bool := copyoutLoop cur pgdir buf.length va.toNat buf

/-! ## exec.c -/

/-- The loop over the segments; `load` is `loaduvm`. -/
def loadSegments (load : Word → Word → Nat → Nat → M (Option Nat)) (pgdir : Ppn) :
    Nat → Word → Nat → Nat → M (Option Nat)
  | 0, _, sz, _ => pure (some sz)
  | n + 1, off, sz, k =>
    match readi ip k off Proghdr.size with
    | none => pure none
    | some bs =>
      let ph := Proghdr.ofBytes bs
      if bs.length ≠ Proghdr.size then pure none
      else if ph.type ≠ ELF_PROG_LOAD then loadSegments load pgdir n (off + ofNat 32 Proghdr.size) sz (k + 1)
      else if ph.memsz < ph.filesz then pure none
      else if ph.vaddr + ph.memsz < ph.vaddr then pure none
      else do
        let sz ← allocuvm y pgdir sz (ph.vaddr + ph.memsz).toNat
        if sz = 0 then pure none
        else if ph.vaddr.toNat % PGSIZE ≠ 0 then pure none
        else do
          match ← load ph.vaddr ph.off ph.filesz.toNat (k + 1) with
          | none => pure none
          | some k => loadSegments load pgdir n (off + ofNat 32 Proghdr.size) sz k

/-- The loop over the arguments: the stack pointer, and where the strings are. -/
def pushArgs (cur pgdir : Ppn) : List (List Byte) → Nat → Word → List Word → M (Option (Word × List Word))
  | [], _, sp, ustack => pure (some (sp, ustack))
  | arg :: argv, argc, sp, ustack =>
    if argc ≥ MAXARG then pure none
    else do
      let sp := (sp - ofNat 32 (arg.length + 1)) &&& ~~~3
      if ← copyout cur pgdir sp (arg ++ [0]) then pushArgs cur pgdir argv (argc + 1) sp (ustack ++ [sp])
      else pure none

/-- The new memory: its size and the stack pointer. -/
def image (cur pgdir : Ppn) (elf : Elfhdr) (argv : List (List Byte)) : M (Option (Nat × Word)) := do
  match ← loadSegments y ip (loaduvm ip pgdir) pgdir elf.phnum.toNat elf.phoff 0 1 with
  | none => pure none
  | some sz => do
    -- Allocate two pages at the next page boundary. Make the first inaccessible.
    let sz ← allocuvm y pgdir (roundup sz * PGSIZE) ((roundup sz + 2) * PGSIZE)
    if sz = 0 then pure none
    else do
      clearpteu pgdir (ofNat 20 (sz / PGSIZE - 2))
      match ← pushArgs cur pgdir argv 0 (ofNat 32 sz) [] with
      | none => pure none
      | some (sp, ustack) => do
        let argc := argv.length
        let ustack := [0xffffffff, ofNat 32 argc, sp - ofNat 32 ((argc + 1) * 4)] ++ ustack ++ [0]
        let sp := sp - ofNat 32 ((3 + argc + 1) * 4)
        if ← copyout cur pgdir sp (ustack.flatMap le32) then pure (some (sz, sp)) else pure none

structure Task where
  pgdir : Ppn
  sz : Nat
  tf : Trapframe
  name : List Byte
  handlers : Sig → Word
  mask : Word
  pending : Word

def resetHandlers (handlers : Sig → Word) : Sig → Word := fun i =>
  if handlers i ≠ SIG_DFL ∧ handlers i ≠ SIG_IGN then SIG_DFL else handlers i

/-- What follows the last '/'. -/
def lastElem (path : List Byte) : List Byte := (path.reverse.takeWhile (· ≠ 0x2f)).reverse

/-- `exec`, with the inode that `namei` returns. -/
def exec (curproc : Task) (ip : Option Inode) (path : List Byte) (argv : List (List Byte)) : M (Bool × Task) :=
  let curproc := { curproc with handlers := resetHandlers curproc.handlers }
  match ip with
  | none => pure (false, curproc)
  | some ip =>
    match readi ip 0 0 Elfhdr.size with
    | none => pure (false, curproc)
    | some bs =>
      let elf := Elfhdr.ofBytes bs
      if bs.length ≠ Elfhdr.size then pure (false, curproc)
      else if elf.magic ≠ ELF_MAGIC then pure (false, curproc)
      else do
        match ← setupkvm y with
        | none => pure (false, curproc)
        | some pgdir => do
          match ← image y ip curproc.pgdir pgdir elf argv with
          | none => do
            freevm y pgdir
            pure (false, curproc)
          | some (sz, sp) => do
            freevm y curproc.pgdir
            pure (true, { curproc with
              pgdir, sz
              name := (lastElem path).take 15
              tf := { curproc.tf with eip := elf.entry, esp := sp } })

end Xv6.Vm
