import Mathlib
import Xv6.Bits

/- Byte memory behind a page table.

   `Mem` is the memory one address space maps: a 32-bit address either has no
   page (`none`) or holds a byte. `store` and `load` walk a stretch of bytes
   upwards, wrapping at 2^32 as the hardware's addresses do, and stop with the
   address at which the walk left the mapped memory.

   The one fact proofs use about `store` is `store_ok_iff`: a store that goes
   through finds every address mapped and leaves the old memory with the bytes
   laid over it (`overlay`). -/
namespace ByteMem
open Function List Bits
open BitVec (ofNat)

variable {a : Word} {bs : List Byte} {n : Nat}

abbrev Mem := Word → Option Byte

/-- Store `bs` from `a` upwards, or stop at the first unmapped address. -/
def store (m : Mem) (a : Word) : List Byte → Except Word Mem
  | [] => .ok m
  | b :: bs =>
    if (m a).isSome then store (update m a (some b)) (a + 1) bs else .error a

def storeAll (m : Mem) : List (Word × List Byte) → Except Word Mem
  | [] => .ok m
  | (a, bs) :: rest => store m a bs >>= fun m => storeAll m rest

/-- Load `n` bytes from `a` upwards, or stop at the first unmapped address. -/
def load (m : Mem) (a : Word) : Nat → Except Word (List Byte)
  | 0 => .ok []
  | n + 1 =>
    match m a with
    | none => .error a
    | some b => (load m (a + 1) n).map (b :: ·)

/-- Peeling a computation that can stop: it went through exactly when both
halves did. -/
theorem bind_ok_iff {ε α β : Type} {x : Except ε α} {f : α → Except ε β} {b : β} :
    (x >>= f) = .ok b ↔ ∃ a, x = .ok a ∧ f a = .ok b := by
  cases x <;> simp [bind, Except.bind]

/-- How far above `a` the address `x` lies, modulo 2^32. -/
def ahead (a x : Word) : Nat := (x - a).toNat

def Mapped (m : Mem) (a : Word) (n : Nat) : Prop :=
  ∀ k < n, (m (a + ofNat 32 k)).isSome

/-- `m` with `bs` laid over it from `a` upwards. -/
def overlay (m : Mem) (a : Word) (bs : List Byte) : Mem :=
  fun x => (bs[ahead a x]?).or (m x)

theorem ahead_self (a : Word) : ahead a a = 0 := by simp [ahead]

theorem ahead_add {k : Nat} (a : Word) (hk : k < 2 ^ 32) :
    ahead a (a + ofNat 32 k) = k := by
  unfold ahead
  bv_omega

theorem add_ahead (a x : Word) : a + ofNat 32 (ahead a x) = x := by
  unfold ahead
  bv_omega

/-- One step up shortens the distance by one. -/
theorem ahead_succ {x : Word} (h : x ≠ a) : ahead a x = ahead (a + 1) x + 1 := by
  unfold ahead
  bv_omega

theorem ahead_succ_self (a : Word) : ahead (a + 1) a = 2 ^ 32 - 1 := by
  unfold ahead
  bv_omega

/-- Starting `n` further up shortens the distance by `n`. -/
theorem ahead_add_left {x : Word} (h : n ≤ ahead a x) :
    ahead (a + ofNat 32 n) x = ahead a x - n := by
  unfold ahead at *
  bv_omega

theorem overlay_nil (m : Mem) (a : Word) : overlay m a [] = m := by
  funext x; simp [overlay]

/-- An address outside the stretch keeps its byte. -/
theorem overlay_off {m : Mem} {x : Word} (h : bs.length ≤ ahead a x) :
    overlay m a bs x = m x := by
  simp [overlay, h]

theorem overlay_on {m : Mem} {x : Word} (h : ahead a x < bs.length) :
    overlay m a bs x = bs[ahead a x]? := by
  simp [overlay, h]

theorem overlay_cons (m : Mem) (a : Word) (b : Byte) (bs : List Byte)
    (hlen : bs.length < 2 ^ 32) :
    overlay (update m a (some b)) (a + 1) bs = overlay m a (b :: bs) := by
  funext x
  by_cases hx : x = a
  · subst hx
    have hd := ahead_succ_self x
    rw [overlay_off (by omega), overlay_on (by simp [ahead_self])]
    simp [ahead_self]
  · simp [overlay, ahead_succ hx, update_of_ne hx]

theorem add_ofNat_succ (a : Word) (k : Nat) :
    a + ofNat 32 (k + 1) = a + 1 + ofNat 32 k := by
  bv_omega

theorem mapped_cons {m : Mem} :
    Mapped m a (n + 1) ↔ (m a).isSome ∧ Mapped m (a + 1) n := by
  unfold Mapped
  rw [Nat.forall_lt_succ_left, BitVec.add_zero]
  refine and_congr_right fun _ => forall₂_congr fun k _ => ?_
  rw [add_ofNat_succ]

/-- Storing changes no mapping. -/
theorem mapped_update {m : Mem} {c : Word} {b : Byte} (ha : (m a).isSome) :
    Mapped (update m a (some b)) c n ↔ Mapped m c n := by
  unfold Mapped
  refine forall₂_congr fun k _ => ?_
  by_cases h : c + ofNat 32 k = a
  · simp [h, ha]
  · rw [update_of_ne h]

theorem store_ok_iff {m m' : Mem} (hlen : bs.length ≤ 2 ^ 32) :
    store m a bs = .ok m' ↔ Mapped m a bs.length ∧ m' = overlay m a bs := by
  induction bs generalizing m a with
  | nil =>
    rw [overlay_nil, eq_comm (a := m')]
    simp [store, Mapped]
  | cons b bs ih =>
    have hbs : bs.length < 2 ^ 32 := by rw [length_cons] at hlen; omega
    unfold store
    rw [length_cons, mapped_cons]
    split
    · next ha =>
      rw [ih (by omega), mapped_update ha, overlay_cons m a b bs hbs]
      simp [ha]
    · next ha => simp [ha]

theorem overlay_isSome {m : Mem} (hmap : Mapped m a bs.length)
    (x : Word) : (overlay m a bs x).isSome = (m x).isSome := by
  by_cases h : ahead a x < bs.length
  · have hx := hmap _ h
    rw [add_ahead] at hx
    simp [overlay_on h, hx, h]
  · rw [overlay_off (by omega)]

/-- A store keeps every mapping. -/
theorem mapped_overlay {m : Mem} {c : Word}
    (hmap : Mapped m a bs.length) : Mapped (overlay m a bs) c n ↔ Mapped m c n := by
  unfold Mapped
  simp only [overlay_isSome hmap]

/-- Laying `cs` right below `bs` is laying `cs ++ bs`. -/
theorem overlay_append {m : Mem} {c : Word} {cs : List Byte}
    (hc : c + ofNat 32 cs.length = a) :
    overlay (overlay m a bs) c cs = overlay m c (cs ++ bs) := by
  funext x
  subst hc
  by_cases hx : ahead c x < cs.length
  · rw [overlay_on hx, overlay_on (by rw [length_append]; omega),
      List.getElem?_append_left hx]
  · have hge : cs.length ≤ ahead c x := by omega
    rw [overlay_off hge]
    unfold overlay
    rw [ahead_add_left hge, List.getElem?_append_right hge]

theorem mapped_append {m : Mem} {k : Nat} :
    Mapped m a (n + k) ↔ Mapped m a n ∧ Mapped m (a + ofNat 32 n) k := by
  constructor
  · intro h
    refine ⟨fun j hj => h j (by omega), fun j hj => ?_⟩
    have := h (n + j) (by omega)
    rwa [BitVec.ofNat_add, ← BitVec.add_assoc] at this
  · rintro ⟨h1, h2⟩ j hj
    by_cases hjn : j < n
    · exact h1 j hjn
    · have := h2 (j - n) (by omega)
      rwa [BitVec.add_assoc, ← BitVec.ofNat_add, Nat.add_sub_cancel' (by omega)] at this

theorem load_ok_iff {m : Mem} :
    load m a n = .ok bs ↔ bs.length = n ∧ ∀ k < n, m (a + ofNat 32 k) = bs[k]? := by
  induction n generalizing a bs with
  | zero =>
    simp only [load, Except.ok.injEq, length_eq_zero_iff]
    simp [eq_comm]
  | succ n ih =>
    unfold load
    cases hma : m a with
    | none =>
      simp only [reduceCtorEq, false_iff, not_and]
      intro hl h0
      have := h0 0 (by omega)
      simp [hma, hl] at this
    | some b =>
      simp only [Nat.forall_lt_succ_left, add_ofNat_succ a]
      cases bs with
      | nil => cases load m (a + 1) n <;> simp [Except.map]
      | cons c cs =>
        simp only [length_cons, Nat.add_right_cancel_iff, List.getElem?_cons_succ,
          BitVec.ofNat_eq_ofNat, BitVec.add_zero, hma, List.getElem?_cons_zero, Option.some.injEq]
        rw [and_left_comm, ← ih]
        cases load m (a + 1) n <;> simp [Except.map]

/-- A load from mapped memory goes through. -/
theorem exists_load {m : Mem} (h : Mapped m a n) :
    ∃ bs, load m a n = .ok bs := by
  induction n generalizing a with
  | zero => exact ⟨[], rfl⟩
  | succ n ih =>
    obtain ⟨ha, hrest⟩ := mapped_cons.mp h
    obtain ⟨b, hb⟩ := Option.isSome_iff_exists.mp ha
    obtain ⟨bs, hbs⟩ := ih hrest
    refine ⟨b :: bs, ?_⟩
    simp only [load, hb, hbs, Except.map]

/-- A load reads back what was laid over the memory at that address. -/
theorem load_overlay (m : Mem) (a : Word) (hlen : bs.length ≤ 2 ^ 32) :
    load (overlay m a bs) a bs.length = .ok bs := by
  refine load_ok_iff.mpr ⟨rfl, fun k hk => ?_⟩
  have hd := ahead_add a (Nat.lt_of_lt_of_le hk hlen)
  rw [overlay_on (by omega), hd]

/-- Two memories that agree on the stretch load the same bytes. -/
theorem load_congr {m m' : Mem}
    (h : ∀ k < n, m' (a + ofNat 32 k) = m (a + ofNat 32 k))
    (hl : load m a n = .ok bs) : load m' a n = .ok bs := by
  rw [load_ok_iff] at hl ⊢
  exact ⟨hl.1, fun k hk => (h k hk).trans (hl.2 k hk)⟩

def addrs (a : Word) (n : Nat) : List Word := (range n).map fun k => a + ofNat 32 k

theorem mem_addrs {x : Word} (hn : n ≤ 2 ^ 32) : x ∈ addrs a n ↔ ahead a x < n := by
  simp only [addrs, mem_map, mem_range]
  constructor
  · intro ⟨k, hk, hx⟩
    rw [← hx, ahead_add a (by omega)]
    exact hk
  · intro h
    exact ⟨ahead a x, h, add_ahead a x⟩

end ByteMem
