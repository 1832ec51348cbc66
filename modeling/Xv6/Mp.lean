import Xv6.Bits
import Xv6.Fuel

/- The multiprocessor tables the firmware leaves in memory (mp.c).

   `mpinit` finds the configuration table and goes from entry to entry; the first byte of an entry is its type and
   decides how far the next one is.

   1. An entry of a known type takes the pointer forward, one of an unknown type leaves it where it is: the `break`
      ends the `switch` and not the loop.
   2. So the walk over a table ends exactly if every entry it comes to is of a known type (`mpinit_ends_iff`), and the
      panic about an unsuitable machine is never reached.

   Correspondence (C ↔ Lean):
     `sum`, `mpsearch1`, `mpsearch`, `mpconfig` ↔ the definitions of these names
     `p < e; p += sizeof(struct mp)`            ↔ the multiples of 16 below `len`: the ranges `mpsearch` asks for end
                                                  below the top of the address space
     the body of the loop of `mpinit`           ↔ `entry`
     the loop                                   ↔ `walk`, `none` when the fuel has run out
     `cpus[i].apicid`, `ncpu`, `ioapicid`       ↔ fields of `Machine`
     the writes to ports 0x22 and 0x23          ↔ `imcr` -/
namespace Xv6.Mp
open List Bits Fuel
open BitVec (ofNat)

abbrev Memory := Word → Byte

def NCPU : Nat := 8

def P2V (a : Word) : Word := a + 0x80000000

def bytes (mem : Memory) (p : Word) (len : Nat) : List Byte := (range len).map fun i => mem (p + ofNat 32 i)

def sum (mem : Memory) (addr : Word) (len : Nat) : Byte := ofNat 8 ((bytes mem addr len).map BitVec.toNat).sum

def mpsearch1 (mem : Memory) (a : Word) (len : Nat) : Option Word :=
  ((range (len / 16)).map fun i => P2V a + ofNat 32 (16 * i)).find? fun p =>
    decide (bytes mem p 4 = [0x5F, 0x4D, 0x50, 0x5F] ∧ sum mem p 16 = 0)

def mpsearch (mem : Memory) : Option Word :=
  let bda := P2V 0x400
  let segment := (mem (bda + 0x0F) ++ mem (bda + 0x0E)).setWidth 32 <<< 4
  let kilobytes := (mem (bda + 0x14) ++ mem (bda + 0x13)).setWidth 32 * 1024
  (mpsearch1 mem (if segment ≠ 0 then segment else kilobytes - 1024) 1024).or (mpsearch1 mem 0xF0000 0x10000)

def length (mem : Memory) (conf : Word) : Nat := (rd16 (bytes mem conf 6) 4).toNat

/-- The table, and the structure that points to it. -/
def mpconfig (mem : Memory) : Option (Word × Word) := do
  let mp ← mpsearch mem
  let physaddr := rd32 (bytes mem mp 8) 4
  guard (physaddr ≠ 0)
  let conf := P2V physaddr
  guard (bytes mem conf 4 = [0x50, 0x43, 0x4D, 0x50])
  guard (mem (conf + 6) = 1 ∨ mem (conf + 6) = 4)
  guard (sum mem conf (length mem conf) = 0)
  pure (conf, mp)

structure Machine where
  p : Word
  ismp : Bool
  ncpu : Nat
  apicid : Fin NCPU → Byte
  ioapicid : Byte

/-- The entry of a processor. Processors beyond the last place are passed over. -/
def Machine.addCpu (m : Machine) (id : Byte) : Machine :=
  if h : m.ncpu < NCPU then { m with apicid := Function.update m.apicid ⟨m.ncpu, h⟩ id, ncpu := m.ncpu + 1 } else m

def entry (mem : Memory) (m : Machine) : Machine :=
  match (mem m.p).toNat with
  | 0 => { m.addCpu (mem (m.p + 1)) with p := m.p + 20 }
  | 2 => { m with ioapicid := mem (m.p + 1), p := m.p + 8 }
  | 1 | 3 | 4 => { m with p := m.p + 8 }
  | _ => { m with ismp := false }

def walk (mem : Memory) (e : Word) : Nat → Machine → Option Machine
  | 0, m => if m.p < e then none else some m
  | fuel + 1, m => if m.p < e then walk mem e fuel (entry mem m) else some m

inductive Panic where
  | expectSmp
  | unsuitable
  deriving DecidableEq

structure Found where
  lapic : Word
  imcr : Bool
  machine : Machine

/-- Where the entries start, behind the 44 bytes of the header, and where they end. -/
def first (conf : Word) : Word := conf + 44

def last (mem : Memory) (conf : Word) : Word := conf + ofNat 32 (length mem conf)

def start (conf : Word) : Machine := ⟨first conf, true, 0, fun _ => 0, 0⟩

def mpinit (mem : Memory) (fuel : Nat) : Option (Except Panic Found) :=
  match mpconfig mem with
  | none => some (.error .expectSmp)
  | some (conf, mp) => do
    let m ← walk mem (last mem conf) fuel (start conf)
    if m.ismp then some (.ok ⟨rd32 (bytes mem conf 40) 36, mem (mp + 12) ≠ 0, m⟩) else some (.error .unsuitable)

/-! ## Entries -/

variable {mem : Memory} {e p q conf mp : Word} {m m' : Machine} {fuel : Nat}

/-- How long an entry of a known type is. -/
def size (type : Byte) : Option Nat :=
  match type.toNat with
  | 0 => some 20
  | 1 | 2 | 3 | 4 => some 8
  | _ => none

theorem size_bounds {n : Nat} (h : size (mem p) = some n) : 0 < n ∧ n ≤ 20 := by
  unfold size at h
  split at h <;> cases h <;> decide

theorem addCpu_le {id : Byte} (h : m.ncpu ≤ NCPU) : (m.addCpu id).ncpu ≤ NCPU := by
  unfold Machine.addCpu
  split
  · assumption
  · exact h

theorem addCpu_ismp {id : Byte} : (m.addCpu id).ismp = m.ismp := by
  unfold Machine.addCpu
  split <;> rfl

theorem entry_known {n : Nat} (h : size (mem m.p) = some n) :
    (entry mem m).p = m.p + ofNat 32 n ∧ (entry mem m).ismp = m.ismp := by
  unfold size at h
  unfold entry
  split at h <;> rename_i heq <;> cases h <;> rw [heq] <;> first | exact ⟨rfl, rfl⟩ | exact ⟨rfl, addCpu_ismp⟩

theorem entry_unknown (h : size (mem m.p) = none) : (entry mem m).p = m.p := by
  unfold size at h
  unfold entry
  split at h <;> try cases h
  split <;> first | contradiction | rfl

theorem entry_ncpu (h : m.ncpu ≤ NCPU) : (entry mem m).ncpu ≤ NCPU := by
  unfold entry
  split
  · exact addCpu_le h
  all_goals exact h

theorem walk_ncpu (h : m.ncpu ≤ NCPU) (hw : walk mem e fuel m = some m') : m'.ncpu ≤ NCPU := by
  induction fuel generalizing m with
  | zero =>
    unfold walk at hw
    split at hw
    · cases hw
    · cases hw
      exact h
  | succ fuel ih =>
    unfold walk at hw
    split at hw
    · exact ih (entry_ncpu h) hw
    · cases hw
      exact h

/-! ## The walk -/

/-- The places the walk from `p` comes to. -/
inductive Reached (mem : Memory) (e p : Word) : Word → Prop
  | start : Reached mem e p p
  | next {q : Word} {n : Nat} :
      Reached mem e p q → q < e → size (mem q) = some n → Reached mem e p (q + ofNat 32 n)

theorem Reached.head (h : Reached mem e p q) :
    q = p ∨ p < e ∧ ∃ n, size (mem p) = some n ∧ Reached mem e (p + ofNat 32 n) q := by
  induction h with
  | start => exact .inl rfl
  | next _ hlt hn ih =>
    obtain rfl | ⟨hp, k, hk, hr⟩ := ih
    · exact .inr ⟨hlt, _, hn, .start⟩
    · exact .inr ⟨hp, k, hk, .next hr hlt hn⟩

theorem Reached.before {n : Nat} (hp : p < e) (hn : size (mem p) = some n)
    (h : Reached mem e (p + ofNat 32 n) q) : Reached mem e p q := by
  induction h with
  | start => exact .next .start hp hn
  | next _ hq hn ih => exact .next ih hq hn

/-- Every entry the walk from `p` comes to is of a known type. -/
def Known (mem : Memory) (e p : Word) : Prop := ∀ q, Reached mem e p q → q < e → (size (mem q)).isSome

theorem walk_unknown (hp : m.p < e) (h : size (mem m.p) = none) : walk mem e fuel m = none := by
  induction fuel generalizing m with
  | zero => simp [walk, hp]
  | succ fuel ih =>
    have hsame := entry_unknown h
    rw [walk, if_pos hp]
    exact ih (by rwa [hsame]) (by rwa [hsame])

theorem known_of_walk (hw : walk mem e fuel m = some m') : Known mem e m.p := by
  induction fuel generalizing m with
  | zero =>
    intro q hq hlt
    have hend : ¬m.p < e := fun hp => by simp [walk, hp] at hw
    obtain rfl | ⟨hp, _⟩ := hq.head
    · exact absurd hlt hend
    · exact absurd hp hend
  | succ fuel ih =>
    intro q hq hlt
    obtain rfl | ⟨hp, n, hn, hr⟩ := hq.head
    · -- an entry of an unknown type here would have kept the walk going
      by_contra hnone
      rw [walk_unknown hlt (Option.not_isSome_iff_eq_none.mp hnone)] at hw
      cases hw
    · rw [walk, if_pos hp] at hw
      rw [← (entry_known hn).1] at hr
      exact ih hw q hr hlt

theorem walk_ismp (hw : walk mem e fuel m = some m') : m'.ismp = m.ismp := by
  induction fuel generalizing m with
  | zero =>
    by_cases hp : m.p < e
    · simp [walk, hp] at hw
    · cases (show some m = some m' by simpa [walk, hp] using hw)
      rfl
  | succ fuel ih =>
    by_cases hp : m.p < e
    · obtain ⟨n, hn⟩ := Option.isSome_iff_exists.mp (known_of_walk hw m.p .start hp)
      rw [walk, if_pos hp] at hw
      exact (ih hw).trans (entry_known hn).2
    · cases (show some m = some m' by simpa [walk, hp] using hw)
      rfl

theorem walk_ends (htop : e.toNat + 20 ≤ 2 ^ 32) (h : Known mem e m.p) :
    ∃ m' n, ∀ fuel, n ≤ fuel → walk mem e fuel m = some m' := by
  -- each entry leaves fewer bytes in front of the end
  induction hleft : e.toNat - m.p.toNat using Nat.strongRecOn generalizing m with
  | ind left ih =>
    by_cases hp : m.p < e
    · obtain ⟨k, hk⟩ := Option.isSome_iff_exists.mp (h m.p .start hp)
      obtain ⟨hnext, -⟩ := entry_known (m := m) hk
      have hbounds := size_bounds hk
      have hmove : (entry mem m).p.toNat = m.p.toNat + k := by
        rw [hnext]
        bv_omega
      have hknown : Known mem e (entry mem m).p := fun q hq => h q (Reached.before hp hk (hnext ▸ hq))
      have hlt : m.p.toNat < e.toNat := hp
      obtain ⟨m', n, hw⟩ := ih (e.toNat - (entry mem m).p.toNat) (by omega) hknown rfl
      refine ⟨m', n + 1, fun fuel hfuel => ?_⟩
      obtain ⟨fuel, rfl⟩ : ∃ j, fuel = j + 1 := ⟨fuel - 1, by omega⟩
      rw [walk, if_pos hp]
      exact hw fuel (by omega)
    · refine ⟨m, 0, fun fuel _ => ?_⟩
      cases fuel <;> simp [walk, hp]

/-! ## `mpinit` -/

theorem mpinit_eq (h : mpconfig mem = some (conf, mp)) {m : Machine}
    (hw : walk mem (last mem conf) fuel (start conf) = some m) :
    mpinit mem fuel = some (.ok ⟨rd32 (bytes mem conf 40) 36, mem (mp + 12) ≠ 0, m⟩) := by
  have hismp : m.ismp = true := walk_ismp hw
  simp [mpinit, h, hw, hismp]

theorem walk_of_mpinit {r : Except Panic Found} (h : mpconfig mem = some (conf, mp)) (hr : mpinit mem fuel = some r) :
    ∃ m, walk mem (last mem conf) fuel (start conf) = some m := by
  cases hw : walk mem (last mem conf) fuel (start conf) with
  | some m => exact ⟨m, rfl⟩
  | none =>
    simp [mpinit, h, hw] at hr

theorem mpinit_stuck (h : mpconfig mem = some (conf, mp)) (hlt : first conf < last mem conf)
    (hnone : size (mem (first conf)) = none) : mpinit mem fuel = none := by
  have hw : walk mem (last mem conf) fuel (start conf) = none := walk_unknown hlt hnone
  simp [mpinit, h, hw]

/-- The walk over a table ends only if it comes to entries of known types, and it does end then if the table is below
the top of the address space. No more processors have been taken than there are places, and the machine is not called
unsuitable. -/
theorem mpinit_ends_iff (h : mpconfig mem = some (conf, mp)) :
    (conf.toNat + length mem conf + 20 ≤ 2 ^ 32 → Known mem (last mem conf) (first conf) →
      Settles (mpinit mem) fun r => ∃ found, r = some (.ok found) ∧ found.machine.ncpu ≤ NCPU) ∧
    ∀ fuel r, mpinit mem fuel = some r →
      Known mem (last mem conf) (first conf) ∧ ∃ found, r = .ok found ∧ found.machine.ncpu ≤ NCPU := by
  constructor
  · intro htop hknown
    have hend : (last mem conf).toNat + 20 ≤ 2 ^ 32 := by
      unfold last
      bv_omega
    obtain ⟨m, n, hw⟩ := walk_ends (m := start conf) hend hknown
    have hcpus : m.ncpu ≤ NCPU := walk_ncpu (Nat.zero_le _) (hw n (Nat.le_refl n))
    exact ⟨_, ⟨_, rfl, hcpus⟩, n, fun fuel hfuel => mpinit_eq h (hw fuel hfuel)⟩
  · intro fuel r hr
    obtain ⟨m, hw⟩ := walk_of_mpinit h hr
    have hcpus : m.ncpu ≤ NCPU := walk_ncpu (Nat.zero_le _) hw
    rw [mpinit_eq h hw] at hr
    cases hr
    exact ⟨known_of_walk hw, _, rfl, hcpus⟩

/-! ## Two tables -/

/-- Firmware with the table at 0x9FD00, a pointer to it where the extended BIOS data start, and these entries. -/
def firmware (checksum : Byte) (entries : List Byte) : Memory := fun a =>
  let mp : List Byte := [0x5F, 0x4D, 0x50, 0x5F, 0x00, 0xFD, 0x09, 0x00, 1, 4, 0x9A, 0, 0, 0, 0, 0]
  let header : List Byte := [0x50, 0x43, 0x4D, 0x50, ofNat 8 (44 + entries.length), 0, 4, checksum] ++
    replicate 28 0 ++ [0, 0, 0xE0, 0xFE] ++ replicate 4 0
  if a = P2V 0x40E then 0xC0
  else if a = P2V 0x40F then 0x9F
  else if P2V 0x9FC00 ≤ a ∧ a < P2V 0x9FD00 then mp.getD (a - P2V 0x9FC00).toNat 0
  else (header ++ entries).getD (a - P2V 0x9FD00).toNat 0

/-- Two processors and a bus. -/
def entries : List Byte :=
  [0, 7, 20, 3] ++ replicate 16 0 ++ ([0, 8, 20, 3] ++ replicate 16 0) ++ (1 :: replicate 7 0)

theorem mpinit_ends_iff_entries :
    Settles (mpinit (firmware 84 entries)) fun r => ∃ found, r = some (.ok found) ∧ found.machine.ncpu ≤ NCPU := by
  have hconf : mpconfig (firmware 84 entries) = some (P2V 0x9FD00, P2V 0x9FC00) := by decide +kernel
  have hwalk : (walk (firmware 84 entries) (last (firmware 84 entries) (P2V 0x9FD00)) 3
      (start (P2V 0x9FD00))).isSome = true := by decide +kernel
  obtain ⟨m, hw⟩ := Option.isSome_iff_exists.mp hwalk
  exact (mpinit_ends_iff hconf).1 (by decide +kernel) (known_of_walk hw)

/-- A table of one entry of type 255: the checks pass and the walk never ends. -/
theorem mpinit_unknown_entry :
    mpconfig (firmware 194 [255]) = some (P2V 0x9FD00, P2V 0x9FC00) ∧
    ∀ fuel, mpinit (firmware 194 [255]) fuel = none := by
  have hconf : mpconfig (firmware 194 [255]) = some (P2V 0x9FD00, P2V 0x9FC00) := by decide +kernel
  exact ⟨hconf, fun fuel => mpinit_stuck hconf (by decide +kernel) (by decide +kernel)⟩

end Xv6.Mp
