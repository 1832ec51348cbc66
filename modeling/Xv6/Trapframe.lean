import Xv6.Bits

/- The trap frame (`struct trapframe`, x86.h).

   `alltraps` builds it on the kernel stack and `trapret` pops it. Signal
   delivery and `sigret` move it as `sizeof(struct trapframe)` raw bytes, so the
   frame comes with its memory image: `bytes` lays the fields out in the order
   and widths of the C struct, paddings included, and `ofBytes` reads them back.

   Correspondence (C ↔ Lean):
     `struct trapframe`                ↔ `Trapframe`
     `sizeof(struct trapframe)`        ↔ `trapframeSize`
     the frame's bytes in memory       ↔ `Trapframe.bytes`, `Trapframe.ofBytes`
     `SEG_UCODE`, `SEG_UDATA`, `DPL_USER`, `FL_IF`, `FL_IOPL_MASK` (mmu.h)
                                       ↔ the constants of the same names -/
namespace Xv6
open Bits

@[ext]
structure Trapframe where
  -- registers as pushed by pusha
  edi : Word
  esi : Word
  ebp : Word
  oesp : Word
  ebx : Word
  edx : Word
  ecx : Word
  eax : Word
  -- rest of trap frame
  gs : Half
  padding1 : Half
  fs : Half
  padding2 : Half
  es : Half
  padding3 : Half
  ds : Half
  padding4 : Half
  trapno : Word
  -- below here defined by x86 hardware
  err : Word
  eip : Word
  cs : Half
  padding5 : Half
  eflags : Word
  -- below here only when crossing rings
  esp : Word
  ss : Half
  padding6 : Half
  deriving DecidableEq, Repr

def trapframeSize : Nat := 76

def Trapframe.bytes (t : Trapframe) : List Byte :=
  List.flatten [
    le32 t.edi, le32 t.esi, le32 t.ebp, le32 t.oesp,
    le32 t.ebx, le32 t.edx, le32 t.ecx, le32 t.eax,
    le16 t.gs, le16 t.padding1, le16 t.fs, le16 t.padding2,
    le16 t.es, le16 t.padding3, le16 t.ds, le16 t.padding4,
    le32 t.trapno, le32 t.err, le32 t.eip, le16 t.cs, le16 t.padding5,
    le32 t.eflags, le32 t.esp, le16 t.ss, le16 t.padding6]

def Trapframe.ofBytes (bs : List Byte) : Trapframe where
  edi := rd32 bs 0
  esi := rd32 bs 4
  ebp := rd32 bs 8
  oesp := rd32 bs 12
  ebx := rd32 bs 16
  edx := rd32 bs 20
  ecx := rd32 bs 24
  eax := rd32 bs 28
  gs := rd16 bs 32
  padding1 := rd16 bs 34
  fs := rd16 bs 36
  padding2 := rd16 bs 38
  es := rd16 bs 40
  padding3 := rd16 bs 42
  ds := rd16 bs 44
  padding4 := rd16 bs 46
  trapno := rd32 bs 48
  err := rd32 bs 52
  eip := rd32 bs 56
  cs := rd16 bs 60
  padding5 := rd16 bs 62
  eflags := rd32 bs 64
  esp := rd32 bs 68
  ss := rd16 bs 72
  padding6 := rd16 bs 74

@[simp] theorem Trapframe.bytes_length (t : Trapframe) : t.bytes.length = trapframeSize := by
  simp [bytes, trapframeSize]

@[simp] theorem Trapframe.ofBytes_bytes (t : Trapframe) : ofBytes t.bytes = t := by
  have hlast : rd16 (le16 t.padding6) 0 = t.padding6 := le16_join t.padding6
  simp [ofBytes, bytes, hlast]

def Trapframe.zero : Trapframe :=
  ⟨0, 0, 0, 0, 0, 0, 0, 0, 0, 0, 0, 0, 0, 0, 0, 0, 0, 0, 0, 0, 0, 0, 0, 0, 0⟩

/-! ## The fields that carry privilege -/

def DPL_USER : Half := 3
def SEG_UCODE : Half := 3
def SEG_UDATA : Half := 4
def FL_IF : Word := 0x200
def FL_IOPL_MASK : Word := 0x3000

/-- `(SEG_UCODE << 3) | DPL_USER`. -/
def userCode : Half := (SEG_UCODE <<< 3) ||| DPL_USER

/-- `(SEG_UDATA << 3) | DPL_USER`. -/
def userData : Half := (SEG_UDATA <<< 3) ||| DPL_USER

/-- `IRET` through this frame enters user mode: the user segments, interrupts
on, I/O privilege 0. -/
structure Trapframe.UserPriv (t : Trapframe) : Prop where
  cs : t.cs = userCode
  ss : t.ss = userData
  ds : t.ds = userData
  es : t.es = userData
  intr : t.eflags &&& FL_IF = FL_IF
  iopl : t.eflags &&& FL_IOPL_MASK = 0

def PGSIZE : Word := 4096

/-- The frame `userinit` gives the first process. -/
def userinitFrame : Trapframe :=
  { Trapframe.zero with
    cs := userCode
    ds := userData
    es := userData
    ss := userData
    eflags := FL_IF
    esp := PGSIZE
    eip := 0 }

theorem userinitFrame_priv : userinitFrame.UserPriv :=
  ⟨rfl, rfl, rfl, rfl, by decide, by decide⟩

end Xv6
