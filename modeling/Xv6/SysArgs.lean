import Mathlib
import Xv6.Bits

/- How the kernel takes the arguments of a system call from the user's stack (syscall.c), and the arguments of a new
   program from the memory of the old one (`sys_exec` in sysfile.c).

   Addresses and sizes come from the user; the functions compare sums of them, taken modulo 2^32, with the size of the
   process. `Reads p x Q` says that `x` reads only bytes of the process `p`, and that `Q` holds of what it returns.

   1. A process is not larger than KERNBASE: then no sum that passes the comparisons has wrapped.
   2. One lemma for each function: what it reads, and where what it hands to the kernel lies.

   Correspondence (C ↔ Lean):
     `*(int*)addr`, `*s`                  ↔ `load32`, `load`: these also log the addresses they read
     `return -1`                          ↔ `none`
     `*ip`, `*pp` and what is returned    ↔ what stands in `some`
     `(uint)i+size > curproc->sz`         ↔ the same comparison of words; `size < 0` ↔ `size.toInt < 0`
     `for(s = *pp; s < ep; s++)`          ↔ `strLoop`, which counts the bytes up to `ep` -/
namespace Xv6.SysArgs
open List Bits

abbrev Memory := Word → Byte

def KERNBASE : Nat := 0x80000000

def MAXARG : Nat := 32

/-- The process that makes the call. -/
structure Proc where
  mem : Memory
  sz : Word
  esp : Word
  sz_le : sz.toNat ≤ KERNBASE

abbrev M := StateM (List Word)

section

variable (p : Proc)

def load (a : Word) : M Byte := fun log => (p.mem a, log ++ [a])

def load32 (a : Word) : M Word := do
  let b₀ ← load p a
  let b₁ ← load p (a + 1)
  let b₂ ← load p (a + 2)
  let b₃ ← load p (a + 3)
  pure (b₃ ++ b₂ ++ b₁ ++ b₀)

def fetchint (addr : Word) : M (Option Word) :=
  if addr ≥ p.sz ∨ addr + 4 > p.sz then pure none
  else do
    let v ← load32 p addr
    pure (some v)

def strLoop (pp : Word) : Nat → Word → M (Option Word)
  | 0, _ => pure none
  | n + 1, s => do
    let c ← load p s
    if c = 0 then pure (some (s - pp)) else strLoop pp n (s + 1)

/-- The string and its length. -/
def fetchstr (addr : Word) : M (Option (Word × Word)) :=
  if addr ≥ p.sz then pure none
  else do
    let len ← strLoop p addr (p.sz.toNat - addr.toNat) addr
    pure (len.map fun len => (addr, len))

def argint (n : Word) : M (Option Word) := fetchint p (p.esp + 4 + 4 * n)

def argptr (n size : Word) : M (Option Word) := do
  match ← argint p n with
  | none => pure none
  | some i => pure (if size.toInt < 0 ∨ i ≥ p.sz ∨ i + size > p.sz then none else some i)

def argstr (n : Word) : M (Option (Word × Word)) := do
  match ← argint p n with
  | none => pure none
  | some addr => fetchstr p addr

/-- The loop of `sys_exec`, with room for `n` more arguments. -/
def argvLoop (uargv : Word) : Nat → Word → List Word → M (Option (List Word))
  | 0, _, _ => pure none
  | n + 1, i, argv => do
    match ← fetchint p (uargv + 4 * i) with
    | none => pure none
    | some uarg =>
      if uarg = 0 then pure (some argv)
      else
        match ← fetchstr p uarg with
        | none => pure none
        | some (arg, _) => argvLoop uargv n (i + 1) (argv ++ [arg])

/-- `sys_exec` up to its call of `exec`: the path and the arguments. -/
def sysExecArgs : M (Option (Word × List Word)) := do
  match ← argstr p 0 with
  | none => pure none
  | some (path, _) =>
    match ← argint p 1 with
    | none => pure none
    | some uargv =>
      let argv ← argvLoop p uargv MAXARG 0 []
      pure (argv.map fun argv => (path, argv))

end

/-! ## What is read -/

variable {p : Proc} {α β : Type} {a addr i n pp s size v : Word}

/-- `x` reads only bytes of the process, and what it returns has `Q`. -/
def Reads (p : Proc) (x : M α) (Q : α → Prop) : Prop :=
  ∀ log, ∃ new, (x.run log).2 = log ++ new ∧ (∀ a ∈ new, a.toNat < p.sz.toNat) ∧ Q (x.run log).1

namespace Reads

theorem pure {r : α} {Q : α → Prop} (h : Q r) : Reads p (pure r) Q :=
  fun log => ⟨[], (append_nil log).symm, nofun, h⟩

theorem load (h : a.toNat < p.sz.toNat) : Reads p (load p a) (· = p.mem a) :=
  fun _ => ⟨[a], rfl, fun _ hb => by rwa [List.mem_singleton.mp hb], rfl⟩

theorem bind {x : M α} {f : α → M β} {P : α → Prop} {Q : β → Prop} (hx : Reads p x P)
    (hf : ∀ r, P r → Reads p (f r) Q) :
    Reads p (x >>= f) Q := by
  intro log
  obtain ⟨new₁, heq₁, hnew₁, hP⟩ := hx log
  obtain ⟨new₂, heq₂, hnew₂, hQ⟩ := hf _ hP (x.run log).2
  refine ⟨new₁ ++ new₂, ?_, ?_, hQ⟩
  · rw [← append_assoc, ← heq₁]
    exact heq₂
  · intro b hb
    exact (List.mem_append.mp hb).elim (hnew₁ b) (hnew₂ b)

theorem mono {x : M α} {P Q : α → Prop} (hx : Reads p x P) (h : ∀ r, P r → Q r) : Reads p x Q := by
  intro log
  obtain ⟨new, heq, hnew, hP⟩ := hx log
  exact ⟨new, heq, hnew, h _ hP⟩

end Reads

/-! ## What is returned -/

def word (mem : Memory) (a : Word) : Word := mem (a + 3) ++ mem (a + 2) ++ mem (a + 1) ++ mem a

/-- The `n` bytes from `a` on are bytes of the process. -/
def Inside (p : Proc) (a : Word) (n : Nat) : Prop := a.toNat + n ≤ p.sz.toNat

/-- A string of `len` bytes, and its NUL, are bytes of the process. -/
structure StringAt (p : Proc) (a len : Word) : Prop where
  inside : Inside p a (len.toNat + 1)
  nonzero : ∀ k < len.toNat, p.mem (a + BitVec.ofNat 32 k) ≠ 0
  nul : p.mem (a + len) = 0
  nonneg : 0 ≤ len.toInt

theorem reads_load32 (h : Inside p a 4) : Reads p (load32 p a) (· = word p.mem a) := by
  unfold Inside at h
  refine .bind (.load (by omega)) ?_
  rintro _ rfl
  refine .bind (.load (by bv_omega)) ?_
  rintro _ rfl
  refine .bind (.load (by bv_omega)) ?_
  rintro _ rfl
  refine .bind (.load (by bv_omega)) ?_
  rintro _ rfl
  exact .pure rfl

theorem inside_of_le (hlt : a < p.sz) (hsize : 0 ≤ size.toInt) (hle : a + size ≤ p.sz) : Inside p a size.toNat := by
  have hsz := p.sz_le
  have hsmall : size.toNat < 2 ^ 31 := by
    rw [BitVec.toInt_eq_toNat_cond] at hsize
    split at hsize <;> omega
  unfold Inside
  unfold KERNBASE at hsz
  bv_omega

theorem reads_fetchint (addr : Word) :
    Reads p (fetchint p addr) fun r => ∀ v, r = some v → Inside p addr 4 ∧ v = word p.mem addr := by
  unfold fetchint
  split
  · exact .pure nofun
  · rename_i hin
    have hinside : Inside p addr (4 : Word).toNat := inside_of_le (by bv_omega) (by decide) (by bv_omega)
    refine .bind (reads_load32 hinside) ?_
    rintro _ rfl
    refine .pure ?_
    rintro _ ⟨⟩
    exact ⟨hinside, rfl⟩

theorem reads_strLoop {n : Nat} (hle : pp.toNat ≤ s.toNat) (hn : s.toNat + n = p.sz.toNat)
    (hbefore : ∀ k, pp.toNat + k < s.toNat → p.mem (pp + BitVec.ofNat 32 k) ≠ 0) :
    Reads p (strLoop p pp n s) fun r => ∀ len, r = some len → StringAt p pp len := by
  have hsz := p.sz_le
  unfold KERNBASE at hsz
  induction n generalizing s with
  | zero => exact .pure nofun
  | succ n ih =>
    refine .bind (.load (by omega)) ?_
    rintro _ rfl
    have hback : pp + (s - pp) = s := by bv_omega
    have hlen : (s - pp).toNat = s.toNat - pp.toNat := by bv_omega
    split
    · rename_i hnul
      refine .pure ?_
      rintro _ ⟨⟩
      refine ⟨?_, ?_, by rw [hback, hnul], ?_⟩
      · unfold Inside
        omega
      · intro k hk
        exact hbefore k (by omega)
      · rw [BitVec.toInt_eq_toNat_cond, if_pos (by omega)]
        exact Int.natCast_nonneg _
    · rename_i hnul
      refine ih (s := s + 1) (by bv_omega) (by bv_omega) fun k hk => ?_
      by_cases hs : pp.toNat + k < s.toNat
      · exact hbefore k hs
      · have hat : pp + BitVec.ofNat 32 k = s := by bv_omega
        rwa [hat]

theorem reads_fetchstr (addr : Word) :
    Reads p (fetchstr p addr) fun r => ∀ q len, r = some (q, len) → q = addr ∧ StringAt p q len := by
  unfold fetchstr
  split
  · exact .pure nofun
  · rename_i hin
    have hlt : addr.toNat < p.sz.toNat := by bv_omega
    refine .bind (reads_strLoop (Nat.le_refl _) (by omega) fun k hk => absurd hk (by omega)) ?_
    intro r hr
    refine .pure ?_
    rintro q len heq
    obtain ⟨_, rfl, heq⟩ := Option.map_eq_some_iff.mp heq
    cases heq
    exact ⟨rfl, hr len rfl⟩

def slot (p : Proc) (n : Word) : Word := p.esp + 4 + 4 * n

theorem reads_argint (n : Word) :
    Reads p (argint p n) fun r => ∀ v, r = some v → Inside p (slot p n) 4 ∧ v = word p.mem (slot p n) :=
  reads_fetchint _

theorem reads_argptr (n size : Word) :
    Reads p (argptr p n size) fun r => ∀ q, r = some q →
      (Inside p (slot p n) 4 ∧ q = word p.mem (slot p n)) ∧ 0 ≤ size.toInt ∧ Inside p q size.toNat := by
  refine .bind (reads_argint n) fun r hr => ?_
  cases r with
  | none => exact .pure nofun
  | some i =>
    refine .pure ?_
    intro q heq
    split at heq
    · cases heq
    · rename_i hok
      cases heq
      have hsize : 0 ≤ size.toInt := by omega
      exact ⟨hr i rfl, hsize, inside_of_le (by bv_omega) hsize (by bv_omega)⟩

theorem reads_argstr (n : Word) :
    Reads p (argstr p n) fun r => ∀ q len, r = some (q, len) →
      (Inside p (slot p n) 4 ∧ q = word p.mem (slot p n)) ∧ StringAt p q len := by
  refine .bind (reads_argint n) fun r hr => ?_
  cases r with
  | none => exact .pure nofun
  | some addr =>
    refine (reads_fetchstr addr).mono ?_
    intro r hstr q len heq
    obtain ⟨rfl, hstring⟩ := hstr q len heq
    exact ⟨hr q rfl, hstring⟩

/-! ## The arguments of a new program -/

def Handed (p : Proc) (q : Word) : Prop := ∃ len, StringAt p q len

theorem reads_argvLoop (uargv : Word) {n : Nat} {argv : List Word} (h : ∀ q ∈ argv, Handed p q)
    (hroom : argv.length + n ≤ MAXARG) :
    Reads p (argvLoop p uargv n i argv) fun r => ∀ argv, r = some argv → argv.length < MAXARG ∧
      ∀ q ∈ argv, Handed p q := by
  induction n generalizing i argv with
  | zero => exact .pure nofun
  | succ n ih =>
    refine .bind (reads_fetchint _) fun r _ => ?_
    cases r with
    | none => exact .pure nofun
    | some uarg =>
      dsimp only
      split
      · refine .pure ?_
        rintro _ ⟨⟩
        exact ⟨by omega, h⟩
      · refine .bind (reads_fetchstr uarg) fun r hr => ?_
        cases r with
        | none => exact .pure nofun
        | some x =>
          obtain ⟨-, hstring⟩ := hr x.1 x.2 rfl
          refine ih ?_ ?_
          · intro q hq
            obtain hq | hq := List.mem_append.mp hq
            · exact h q hq
            · rw [List.mem_singleton.mp hq]
              exact ⟨x.2, hstring⟩
          · rw [length_append, length_singleton]
            omega

theorem reads_sysExecArgs :
    Reads p (sysExecArgs p) fun r => ∀ path argv, r = some (path, argv) →
      Handed p path ∧ argv.length < MAXARG ∧ ∀ q ∈ argv, Handed p q := by
  refine .bind (reads_argstr 0) fun r hpath => ?_
  cases r with
  | none => exact .pure nofun
  | some x =>
    refine .bind (reads_argint 1) fun r _ => ?_
    cases r with
    | none => exact .pure nofun
    | some uargv =>
      refine .bind (reads_argvLoop uargv (fun _ hq => absurd hq not_mem_nil) (Nat.le_refl _)) fun r hr => ?_
      refine .pure ?_
      intro path argv heq
      obtain ⟨_, rfl, heq⟩ := Option.map_eq_some_iff.mp heq
      cases heq
      exact ⟨⟨x.2, (hpath x.1 x.2 rfl).2⟩, hr argv rfl⟩

/-- For every process, stack pointer, argument and size: the functions read only bytes of the process, whether they
    succeed or fail, and what they hand to the kernel is made of bytes of the process. -/
theorem argument_checks_sound (p : Proc) (addr n size : Word) :
    Reads p (fetchint p addr) (fun r => ∀ v, r = some v → Inside p addr 4 ∧ v = word p.mem addr) ∧
    Reads p (argint p n) (fun r => ∀ v, r = some v → Inside p (slot p n) 4 ∧ v = word p.mem (slot p n)) ∧
    Reads p (argptr p n size) (fun r => ∀ q, r = some q →
      (Inside p (slot p n) 4 ∧ q = word p.mem (slot p n)) ∧ 0 ≤ size.toInt ∧ Inside p q size.toNat) ∧
    Reads p (fetchstr p addr) (fun r => ∀ q len, r = some (q, len) → q = addr ∧ StringAt p q len) ∧
    Reads p (argstr p n) (fun r => ∀ q len, r = some (q, len) →
      (Inside p (slot p n) 4 ∧ q = word p.mem (slot p n)) ∧ StringAt p q len) ∧
    Reads p (sysExecArgs p) (fun r => ∀ path argv, r = some (path, argv) →
      Handed p path ∧ argv.length < MAXARG ∧ ∀ q ∈ argv, Handed p q) :=
  ⟨reads_fetchint addr, reads_argint n, reads_argptr n size, reads_fetchstr addr, reads_argstr n, reads_sysExecArgs⟩

end Xv6.SysArgs
