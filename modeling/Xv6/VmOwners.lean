import Xv6.LinkedQueue
import Xv6.Vm

/- Who owns which page.

   A page is free, or it is kept by a caller (as a page directory or for something else), or it is the page
   table of an entry of a directory, or the user memory of an entry of a page table. `Books` says that every
   page has one owner at most: there is a function from pages to owners, and what the free list, the
   directories and the page tables name is what that function says.

   There is one rule for each way in which the code moves a page from one owner to another. -/
namespace Xv6.Vm
open Function Bits Command LinkedQueue Transition

/-! ## Entries -/

/-- The page that an entry names, if it is present. -/
def entryOf (w : Word) : Option Ppn := if present w then some (addr w) else none

def entry (s : Kernel) (p : Ppn) (i : Index) : Option Ppn := entryOf (s.mem p i)

theorem present_mkPte (p : Ppn) (f : BitVec 12) : present (mkPte p f) = true := by
  simp [present, mkPte]

theorem getLsbD_append_upper (p : Ppn) (f : BitVec 12) {i : Nat} : (p ++ f).getLsbD (12 + i) = p.getLsbD i := by
  have h : ¬12 + i < 12 := by omega
  rw [BitVec.getLsbD_append, if_neg h, Nat.add_sub_cancel_left]

theorem addr_mkPte (p : Ppn) (f : BitVec 12) : addr (mkPte p f) = p := by
  apply BitVec.eq_of_getLsbD_eq
  intro i hi
  have hone : (1#32).getLsbD (12 + i) = false := by
    rw [BitVec.getLsbD_one]
    simp
  rw [addr, mkPte, BitVec.getLsbD_extractLsb', BitVec.getLsbD_or, getLsbD_append_upper, hone]
  simp [hi]

@[simp] theorem entryOf_mkPte (p : Ppn) (f : BitVec 12) : entryOf (mkPte p f) = some p := by
  rw [entryOf, present_mkPte, addr_mkPte]
  rfl

@[simp] theorem entryOf_zero : entryOf 0 = none := rfl

theorem entryOf_eq_some {w : Word} {p : Ppn} : entryOf w = some p ↔ present w = true ∧ addr w = p := by
  unfold entryOf
  by_cases h : present w = true <;> simp [h]

theorem entryOf_eq_none {w : Word} : entryOf w = none ↔ present w = false := by
  unfold entryOf
  cases present w <;> simp

/-- `*p = w` for word `i` of a page. -/
def Kernel.poke (s : Kernel) (p : Ppn) (i : Index) (w : Word) : Kernel :=
  { s with mem := update s.mem p (update (s.mem p) i w) }

def Kernel.fill (s : Kernel) (p : Ppn) (x : Page) : Kernel := { s with mem := update s.mem p x }

section

variable {s : Kernel} {p q : Ppn} {i j : Index} {w : Word} {x : Page}

theorem entry_poke_self : entry (s.poke p i w) p i = entryOf w := by
  simp [entry, Kernel.poke]

theorem entry_poke_of_ne (h : ¬(q = p ∧ j = i)) : entry (s.poke p i w) q j = entry s q j := by
  unfold entry Kernel.poke
  by_cases hq : q = p
  · subst hq
    have hj : j ≠ i := fun hj => h ⟨rfl, hj⟩
    simp [hj]
  · simp [hq]

theorem entry_fill_self : entry (s.fill p x) p j = entryOf (x j) := by
  simp [entry, Kernel.fill]

theorem entry_fill_of_ne (h : q ≠ p) : entry (s.fill p x) q j = entry s q j := by
  simp [entry, Kernel.fill, h]

end

/-! ## The free list -/

/-- The link kept in the head of the free list, and in a free page. -/
def nextOf (s : Kernel) : Option Ppn → Option Ppn
  | none => s.freelist
  | some p => pointee (s.mem p 0)

theorem pointee_pointer {r : Option Ppn} (h : ∀ p, r = some p → p.toNat < PHYSTOP / PGSIZE) :
    pointee (pointer r) = r := by
  cases r with
  | none => rfl
  | some p =>
    have hp : p.toNat < 57344 := h p rfl
    have hshift : (p ++ 0#12).toNat = p.toNat * 4096 := by
      rw [BitVec.toNat_append, BitVec.toNat_zero, Nat.or_zero, Nat.shiftLeft_eq]
    have hne : BitVec.ofNat 32 KERNBASE + (p ++ 0#12) ≠ 0 := by
      intro heq
      have hnat := congrArg BitVec.toNat heq
      rw [BitVec.toNat_add, hshift, BitVec.toNat_ofNat] at hnat
      change (KERNBASE % 2 ^ 32 + p.toNat * 4096) % 2 ^ 32 = 0 at hnat
      simp only [KERNBASE] at hnat
      omega
    have hsub : BitVec.ofNat 32 KERNBASE + (p ++ 0#12) - BitVec.ofNat 32 KERNBASE = p ++ 0#12 := by
      rw [BitVec.add_comm, BitVec.add_sub_cancel]
    unfold pointee pointer
    dsimp only
    rw [if_neg hne, hsub]
    congr 1
    apply BitVec.eq_of_getLsbD_eq
    intro i hi
    rw [BitVec.getLsbD_extractLsb', getLsbD_append_upper]
    simp [hi]

/-! ## Owners -/

/-- What a caller keeps a page for. -/
inductive Use where
  | dir
  | held
  deriving DecidableEq

inductive Owner where
  | free
  | kept (u : Use)
  /-- The page table of entry `i` of directory `d`. -/
  | table (d : Ppn) (i : Index)
  /-- The user memory of entry `j` of that page table. -/
  | user (d : Ppn) (i j : Index)
  deriving DecidableEq

/-- No directory or page table names the page. -/
def Owner.Loose : Owner → Prop
  | .free => True
  | .kept _ => True
  | .table _ _ => False
  | .user _ _ _ => False

/-- What the books record. -/
structure Ghost where
  /-- The entries of a directory that count. -/
  active : Ppn → Index → Prop
  kept : Ppn → Option Use
  free : List Ppn
  own : Ppn → Option Owner

/-- The state names page `p` as one of `o`. -/
def Names (s : Kernel) (g : Ghost) : Owner → Ppn → Prop
  | .free, p => p ∈ g.free
  | .kept u, p => g.kept p = some u
  | .table d i, p => g.active d i ∧ entry s d i = some p
  | .user d i j, p => g.active d i ∧ i.val < 512 ∧ ∃ t, entry s d i = some t ∧ entry s t j = some p

structure Books (y : Layout) (s : Kernel) (g : Ghost) : Prop where
  chain : Chain (nextOf s) none g.free
  owner : ∀ p o, g.own p = some o ↔ Names s g o p
  ram : ∀ p o, g.own p = some o → y.IsRam p
  dir : ∀ d i, g.active d i → g.kept d = some .dir

namespace Books

variable {y : Layout} {s s' : Kernel} {g g' : Ghost} {p t d : Ppn} {i j : Index} {o : Owner}

theorem own_free (hs : Books y s g) (hp : p ∈ g.free) : g.own p = some .free := (hs.owner p .free).mpr hp

theorem own_dir (hs : Books y s g) (h : g.active d i) : g.own d = some (.kept .dir) :=
  (hs.owner d (.kept .dir)).mpr (hs.dir d i h)

theorem own_table (hs : Books y s g) (h : g.active d i) (ht : entry s d i = some t) : g.own t = some (.table d i) :=
  (hs.owner t (.table d i)).mpr ⟨h, ht⟩

theorem own_user (hs : Books y s g) (h : g.active d i) (hi : i.val < 512) (ht : entry s d i = some t)
    (hp : entry s t j = some p) : g.own p = some (.user d i j) :=
  (hs.owner p (.user d i j)).mpr ⟨h, hi, t, ht, hp⟩

/-- The books after page `p` has gone to `o`, or is lost. What has to be shown is what the new state names. -/
theorem move (hs : Books y s g) {o : Option Owner} (hown : g'.own = update g.own p o)
    (hram : ∀ o', o = some o' → y.IsRam p) (hchain : Chain (nextOf s') none g'.free)
    (hdir : ∀ d i, g'.active d i → g'.kept d = some .dir) (hp : ∀ o', Names s' g' o' p ↔ o = some o')
    (hother : ∀ q, q ≠ p → ∀ o', Names s' g' o' q ↔ Names s g o' q) : Books y s' g' where
  chain := hchain
  owner q o' := by
    rw [hown, update_apply]
    split
    · next hq =>
      subst hq
      exact (hp o').symm
    · next hq => rw [hs.owner, hother q hq]
  ram q o' hq := by
    rw [hown, update_apply] at hq
    split at hq
    · next heq =>
      subst heq
      exact hram o' hq
    · exact hs.ram q o' hq
  dir := hdir

theorem unique (hs : Books y s g) (hp : g.own p = some o) (o' : Owner) (h : Names s g o' p) : o' = o :=
  Option.some.inj (((hs.owner p o').mpr h).symm.trans hp)

/-- Directories and page tables are as they were. -/
def SameTables (s s' : Kernel) (g : Ghost) : Prop :=
  ∀ d i, g.active d i → entry s' d i = entry s d i ∧ ∀ t, entry s d i = some t → ∀ j, entry s' t j = entry s t j

theorem SameTables.table_iff (h : SameTables s s' g) (q : Ppn) :
    g.active d i ∧ entry s' d i = some q ↔ Names s g (.table d i) q := by
  refine and_congr_right fun hact => ?_
  rw [(h d i hact).1]

theorem SameTables.user_iff (h : SameTables s s' g) (q : Ppn) :
    (g.active d i ∧ i.val < 512 ∧ ∃ t, entry s' d i = some t ∧ entry s' t j = some q) ↔ Names s g (.user d i j) q := by
  refine and_congr_right fun hact => and_congr_right fun _ => exists_congr fun t => ?_
  rw [(h d i hact).1]
  refine and_congr_right fun ht => ?_
  rw [(h d i hact).2 t ht]

theorem sameTables_fill (hs : Books y s g) {x : Page} (hdir : g.own p ≠ some (.kept .dir))
    (htable : ∀ d i, g.own p ≠ some (.table d i)) : SameTables s (s.fill p x) g := by
  intro d i hact
  refine ⟨entry_fill_of_ne ?_, fun t ht j => entry_fill_of_ne ?_⟩
  · rintro rfl
    exact hdir (hs.own_dir hact)
  · rintro rfl
    exact htable d i (hs.own_table hact ht)

end Books

/-! ## Pages that change hands -/

namespace Ghost

/-- Page `p` goes from the free list to a caller. -/
def take (g : Ghost) (p : Ppn) : Ghost :=
  { g with
    kept := update g.kept p (some .held)
    free := g.free.tail
    own := update g.own p (some (.kept .held)) }

def give (g : Ghost) (p : Ppn) : Ghost :=
  { g with
    kept := update g.kept p none
    free := p :: g.free
    own := update g.own p (some .free) }

/-- A caller's page becomes a page table. -/
def attach (g : Ghost) (p d : Ppn) (i : Index) : Ghost :=
  { g with
    kept := update g.kept p none
    own := update g.own p (some (.table d i)) }

def map (g : Ghost) (p d : Ppn) (i j : Index) : Ghost :=
  { g with
    kept := update g.kept p none
    own := update g.own p (some (.user d i j)) }

/-- A page is lost. -/
def lose (g : Ghost) (p : Ppn) : Ghost :=
  { g with
    kept := update g.kept p none
    own := update g.own p none }

/-- A page goes back to the caller. -/
def unmap (g : Ghost) (p : Ppn) : Ghost :=
  { g with
    kept := update g.kept p (some .held)
    own := update g.own p (some (.kept .held)) }

/-- A caller's page becomes a directory, or is one no longer. -/
def found (g : Ghost) (d : Ppn) : Ghost :=
  { g with
    active := fun d' i => d' = d ∨ g.active d' i
    kept := update g.kept d (some .dir)
    own := update g.own d (some (.kept .dir)) }

/-- An entry of a directory no longer counts. -/
def deactivate (g : Ghost) (d : Ppn) (i : Index) : Ghost :=
  { g with active := fun d' i' => g.active d' i' ∧ ¬(d' = d ∧ i' = i) }

theorem take_own {g : Ghost} {p : Ppn} : (g.take p).own p = some (.kept .held) := update_self ..

theorem take_own_of_ne {g : Ghost} {p q : Ppn} (h : q ≠ p) : (g.take p).own q = g.own q := update_of_ne h ..

end Ghost

namespace Books

variable {y : Layout} {s s' : Kernel} {g g' : Ghost} {p t d : Ppn} {i j : Index} {o : Owner}

/-- A page that no directory or page table names changes hands; directories and page tables are as they were. -/
theorem handOver (hs : Books y s g) {o₁ : Owner} {o₂ : Option Owner} (hp : g.own p = some o₁) (hold : o₁.Loose)
    (hnew : ∀ o, o₂ = some o → o.Loose) (hsame : SameTables s s' g) (hact : g'.active = g.active)
    (hown : g'.own = update g.own p o₂) (hchain : Chain (nextOf s') none g'.free)
    (hdir : ∀ d i, g'.active d i → g'.kept d = some .dir)
    (hfree : ∀ q, q ∈ g'.free ↔ if q = p then o₂ = some .free else q ∈ g.free)
    (hkept : ∀ q u, g'.kept q = some u ↔ if q = p then o₂ = some (.kept u) else g.kept q = some u) : Books y s' g' := by
  have hnot : ∀ o, ¬o.Loose → ¬Names s g o p := fun o ho h => ho (hs.unique hp o h ▸ hold)
  refine hs.move hown (fun _ _ => hs.ram p _ hp) hchain hdir (fun o => ?_) fun q hq o => ?_
  · cases o with
    | free =>
      show p ∈ g'.free ↔ _
      rw [hfree, if_pos rfl]
    | kept u =>
      show g'.kept p = some u ↔ _
      rw [hkept, if_pos rfl]
    | table d i =>
      show g'.active d i ∧ _ ↔ _
      rw [hact, hsame.table_iff]
      exact iff_of_false (hnot _ id) (hnew _)
    | user d i j =>
      show g'.active d i ∧ _ ↔ _
      rw [hact, hsame.user_iff]
      exact iff_of_false (hnot _ id) (hnew _)
  · cases o with
    | free =>
      show q ∈ g'.free ↔ _
      rw [hfree, if_neg hq]
      rfl
    | kept u =>
      show g'.kept q = some u ↔ _
      rw [hkept, if_neg hq]
      rfl
    | table d i =>
      show g'.active d i ∧ _ ↔ _
      rw [hact, hsame.table_iff]
    | user d i j =>
      show g'.active d i ∧ _ ↔ _
      rw [hact, hsame.user_iff]

theorem dir_update (hs : Books y s g) (hp : g.own p ≠ some (.kept .dir)) (u : Option Use) (hact : g.active d i) :
    update g.kept p u d = some .dir := by
  rw [update_of_ne]
  · exact hs.dir d i hact
  · rintro rfl
    exact hp (hs.own_dir hact)

theorem kept_update {q : Ppn} {u' : Use} (kept : Ppn → Option Use) (u : Option Use) {o : Option Owner}
    (ho : u = some u' ↔ o = some (.kept u')) :
    update kept p u q = some u' ↔ if q = p then o = some (.kept u') else kept q = some u' := by
  rw [update_apply]
  split
  · exact ho
  · rfl

theorem chain_fill (hs : Books y s g) (hp : p ∉ g.free) (x : Page) : Chain (nextOf (s.fill p x)) none g.free := by
  refine hs.chain.congr rfl fun a ha => ?_
  show pointee (update s.mem p x a 0) = pointee (s.mem a 0)
  rw [update_of_ne]
  rintro rfl
  exact hp ha

theorem not_free (hs : Books y s g) (hown : g.own p = some o) (ho : o ≠ .free) : p ∉ g.free := by
  intro hp
  exact ho (Option.some.inj (hown.symm.trans (hs.own_free hp)))

theorem take (hs : Books y s g) {rest : List Ppn} (hfree : g.free = p :: rest) :
    Books y { s with freelist := pointee (s.mem p 0) } (g.take p) := by
  have hchain := hs.chain
  rw [hfree] at hchain
  have hown : g.own p = some .free := hs.own_free (by rw [hfree]; exact List.mem_cons_self ..)
  have hrest : p ∉ rest := (List.nodup_cons.mp hchain.nodup).1
  have htail : (g.take p).free = rest := congrArg List.tail hfree
  refine hs.handOver hown trivial (by simp [Owner.Loose]) (fun _ _ _ => ⟨rfl, fun _ _ _ => rfl⟩) rfl rfl ?_
    (fun d i => hs.dir_update (by rw [hown]; nofun) _) ?_ fun q u => kept_update g.kept _ (by simp)
  · rw [htail]
    exact hchain.2.congr rfl fun a _ => rfl
  · intro q
    rw [htail, hfree]
    split
    · next hq =>
      subst hq
      simp [hrest]
    · next hq => simp [hq]

def freed (s : Kernel) (p : Ppn) : Kernel :=
  { s.fill p (update junk 0 (pointer s.freelist)) with freelist := some p }

theorem give (hs : Books y s g) (hown : g.own p = some (.kept .held)) : Books y (freed s p) (g.give p) := by
  have hnot : p ∉ g.free := hs.not_free hown nofun
  have hpointer : pointee (pointer s.freelist) = s.freelist := by
    refine pointee_pointer fun q hq => ?_
    have hhead := hs.chain.head
    rw [show nextOf s none = some q from hq] at hhead
    exact (hs.ram q _ (hs.own_free (List.mem_of_head? hhead.symm))).2
  have hsame : SameTables s (freed s p) g :=
    hs.sameTables_fill (x := update junk 0 (pointer s.freelist)) (by rw [hown]; nofun) (by rw [hown]; nofun)
  refine hs.handOver hown trivial (by simp [Owner.Loose]) hsame rfl rfl ?_
    (fun d i => hs.dir_update (by rw [hown]; nofun) _) ?_ fun q u => kept_update g.kept _ (by simp)
  · refine ⟨rfl, (hs.chain_fill hnot _).congr ?_ fun a _ => rfl⟩
    show pointee (update s.mem p _ p 0) = s.freelist
    rw [update_self, update_self, hpointer]
  · intro q
    show q ∈ p :: g.free ↔ _
    rw [List.mem_cons]
    split
    · next hq => simp [hq]
    · next hq => simp [hq]

theorem fill (hs : Books y s g) (hfree : p ∉ g.free) (hdir : g.own p ≠ some (.kept .dir))
    (htable : ∀ d i, g.own p ≠ some (.table d i)) (x : Page) : Books y (s.fill p x) g where
  chain := hs.chain_fill hfree x
  owner q o := by
    have hsame := hs.sameTables_fill (x := x) hdir htable
    rw [hs.owner]
    cases o with
    | free => exact Iff.rfl
    | kept u => exact Iff.rfl
    | table d i => exact (hsame.table_iff q).symm
    | user d i j => exact (hsame.user_iff q).symm
  ram := hs.ram
  dir := hs.dir

theorem fill_held (hs : Books y s g) (hown : g.own p = some (.kept .held)) (x : Page) : Books y (s.fill p x) g :=
  hs.fill (hs.not_free hown nofun) (by rw [hown]; nofun) (by rw [hown]; nofun) x

theorem lose (hs : Books y s g) (hown : g.own p = some (.kept .held)) : Books y s (g.lose p) := by
  refine hs.handOver hown trivial (by simp) (fun _ _ _ => ⟨rfl, fun _ _ _ => rfl⟩) rfl rfl hs.chain
    (fun d i => hs.dir_update (by rw [hown]; nofun) _) ?_ fun q u => kept_update g.kept _ (by simp)
  intro q
  show q ∈ g.free ↔ _
  split
  · next hq =>
    subst hq
    simp [hs.not_free hown nofun]
  · rfl

theorem retire (hs : Books y s g) (hown : g.own p = some (.kept .dir)) (hact : ∀ i, ¬g.active p i) :
    Books y s (g.unmap p) := by
  refine hs.handOver hown trivial (by simp [Owner.Loose]) (fun _ _ _ => ⟨rfl, fun _ _ _ => rfl⟩) rfl rfl hs.chain ?_
    ?_ fun q u => kept_update g.kept _ (by simp)
  · intro d i h
    show update g.kept p _ d = _
    rw [update_of_ne]
    · exact hs.dir d i h
    · rintro rfl
      exact hact i h
  · intro q
    show q ∈ g.free ↔ _
    split
    · next hq =>
      subst hq
      simp [hs.not_free hown nofun]
    · rfl

end Books

/-! ## Directories and page tables -/

namespace Books

variable {y : Layout} {s s' : Kernel} {g g' : Ghost} {p q t d : Ppn} {i j : Index} {o : Owner} {w : Word}

theorem chain_poke (hs : Books y s g) (hp : p ∉ g.free) : Chain (nextOf (s.poke p i w)) none g.free :=
  hs.chain_fill hp _

theorem ne_dir (hs : Books y s g) (hown : g.own p = some o) (ho : o ≠ .kept .dir) (hact : g.active d i) : d ≠ p := by
  rintro rfl
  exact ho (Option.some.inj (hown.symm.trans (hs.own_dir hact)))

section poke

variable (hs : Books y s g) (hact : g.active d i) (ht : entry s d i = some t)

include hs hact ht

theorem entry_poke_table {d' : Ppn} {i' : Index} (hact' : g.active d' i') :
    entry (s.poke t j w) d' i' = entry s d' i' :=
  entry_poke_of_ne fun h => hs.ne_dir (hs.own_table hact ht) nofun hact' h.1

theorem table_inj {d' : Ppn} {i' : Index} (hact' : g.active d' i') (ht' : entry s d' i' = some t) :
    d' = d ∧ i' = i := by
  have h := (hs.own_table hact' ht').symm.trans (hs.own_table hact ht)
  simpa using h

theorem user_poke_table {d' : Ppn} {i' j' : Index} :
    Names (s.poke t j w) g (.user d' i' j') q ↔
      if d' = d ∧ i' = i ∧ j' = j then i.val < 512 ∧ entryOf w = some q else Names s g (.user d' i' j') q := by
  split
  · next h =>
    obtain ⟨rfl, rfl, rfl⟩ := h
    constructor
    · rintro ⟨-, hi, t', ht', hq⟩
      rw [hs.entry_poke_table hact ht hact, ht] at ht'
      cases ht'
      rw [entry_poke_self] at hq
      exact ⟨hi, hq⟩
    · rintro ⟨hi, hq⟩
      exact ⟨hact, hi, t, by rw [hs.entry_poke_table hact ht hact, ht], by rw [entry_poke_self, hq]⟩
  · next h =>
    refine and_congr_right fun hact' => and_congr_right fun _ => exists_congr fun t' => ?_
    rw [hs.entry_poke_table hact ht hact']
    refine and_congr_right fun ht' => ?_
    rw [entry_poke_of_ne]
    rintro ⟨rfl, rfl⟩
    obtain ⟨rfl, rfl⟩ := hs.table_inj hact ht hact' ht'
    exact h ⟨rfl, rfl, rfl⟩

theorem table_poke_table {d' : Ppn} {i' : Index} :
    Names (s.poke t j w) g (.table d' i') q ↔ Names s g (.table d' i') q := by
  refine and_congr_right fun hact' => ?_
  rw [hs.entry_poke_table hact ht hact']

theorem pokeKernel (hi : 512 ≤ i.val) : Books y (s.poke t j w) g where
  chain := hs.chain_poke (hs.not_free (hs.own_table hact ht) nofun)
  owner q o := by
    rw [hs.owner]
    cases o with
    | free => exact Iff.rfl
    | kept u => exact Iff.rfl
    | table d' i' => exact (hs.table_poke_table hact ht).symm
    | user d' i' j' =>
      rw [hs.user_poke_table hact ht]
      split
      · next h =>
        obtain ⟨-, rfl, -⟩ := h
        constructor
        · rintro ⟨-, hlt, -⟩
          omega
        · rintro ⟨hlt, -⟩
          omega
      · rfl
  ram := hs.ram
  dir := hs.dir

theorem map (hi : i.val < 512) (hnone : entry s t j = none) (hown : g.own p = some (.kept .held))
    (hw : entryOf w = some p) : Books y (s.poke t j w) (g.map p d i j) := by
  have hfresh : ∀ q, ¬Names s g (.user d i j) q := by
    rintro q ⟨-, -, t', ht', hq⟩
    rw [ht] at ht'
    cases ht'
    rw [hnone] at hq
    cases hq
  refine hs.move rfl (fun _ _ => hs.ram p _ hown) (hs.chain_poke (hs.not_free (hs.own_table hact ht) nofun))
    (fun d i => hs.dir_update (by rw [hown]; nofun) _) (fun o => ?_) fun q hq o => ?_
  · cases o with
    | free => exact iff_of_false (hs.not_free hown nofun) nofun
    | kept u => simp [Names, Ghost.map]
    | table d' i' =>
      refine (hs.table_poke_table hact ht).trans (iff_of_false (fun h => ?_) nofun)
      cases hs.unique hown _ h
    | user d' i' j' =>
      refine (hs.user_poke_table hact ht).trans ?_
      split
      · next h =>
        obtain ⟨rfl, rfl, rfl⟩ := h
        simp [hi, hw]
      · next h =>
        refine iff_of_false (fun hn => ?_) fun heq => h ?_
        · cases hs.unique hown _ hn
        · cases heq
          exact ⟨rfl, rfl, rfl⟩
  · cases o with
    | free => exact Iff.rfl
    | kept u => simp [Names, Ghost.map, hq]
    | table d' i' => exact hs.table_poke_table hact ht
    | user d' i' j' =>
      refine (hs.user_poke_table hact ht).trans ?_
      split
      · next h =>
        obtain ⟨rfl, rfl, rfl⟩ := h
        refine iff_of_false (fun hn => hq ?_) (hfresh q)
        exact (Option.some.inj (hw.symm.trans hn.2)).symm
      · rfl

theorem unmap (hi : i.val < 512) (hp : entry s t j = some p) (hw : entryOf w = none) :
    Books y (s.poke t j w) (g.unmap p) := by
  have hown := hs.own_user hact hi ht hp
  refine hs.move rfl (fun _ _ => hs.ram p _ hown) (hs.chain_poke (hs.not_free (hs.own_table hact ht) nofun))
    (fun d i => hs.dir_update (by rw [hown]; nofun) _) (fun o => ?_) fun q hq o => ?_
  · cases o with
    | free => exact iff_of_false (hs.not_free hown nofun) nofun
    | kept u => simp [Names, Ghost.unmap]
    | table d' i' =>
      refine (hs.table_poke_table hact ht).trans (iff_of_false (fun h => ?_) nofun)
      cases hs.unique hown _ h
    | user d' i' j' =>
      refine (hs.user_poke_table hact ht).trans (iff_of_false ?_ nofun)
      split
      · rintro ⟨-, h⟩
        rw [hw] at h
        cases h
      · next hne =>
        intro h
        cases hs.unique hown _ h
        exact hne ⟨rfl, rfl, rfl⟩
  · cases o with
    | free => exact Iff.rfl
    | kept u => simp [Names, Ghost.unmap, hq]
    | table d' i' => exact hs.table_poke_table hact ht
    | user d' i' j' =>
      refine (hs.user_poke_table hact ht).trans ?_
      split
      · next h =>
        obtain ⟨rfl, rfl, rfl⟩ := h
        refine iff_of_false (fun h => ?_) fun h => hq ?_
        · rw [hw] at h
          cases h.2
        · obtain ⟨-, -, t', ht', hq'⟩ := h
          rw [ht] at ht'
          cases ht'
          exact Option.some.inj (hq'.symm.trans hp)
      · rfl

end poke

theorem attach (hs : Books y s g) (hact : g.active d i) (hnone : entry s d i = none)
    (hown : g.own p = some (.kept .held)) (hzero : ∀ j, entry s p j = none) (hw : entryOf w = some p) :
    Books y (s.poke d i w) (g.attach p d i) := by
  have hdir := hs.own_dir hact
  have hpd : p ≠ d := by
    rintro rfl
    cases hown.symm.trans hdir
  have hentry : ∀ {d' i'}, ¬(d' = d ∧ i' = i) → entry (s.poke d i w) d' i' = entry s d' i' :=
    fun h => entry_poke_of_ne h
  have htable : ∀ {d' i' q}, ¬(d' = d ∧ i' = i) →
      (Names (s.poke d i w) (g.attach p d i) (.table d' i') q ↔ Names s g (.table d' i') q) := by
    intro d' i' q h
    show _ ∧ _ ↔ _ ∧ _
    rw [hentry h]
    rfl
  have huser : ∀ {d' i' j' q}, Names (s.poke d i w) (g.attach p d i) (.user d' i' j') q ↔
      Names s g (.user d' i' j') q := by
    intro d' i' j' q
    refine and_congr_right fun hact' => and_congr_right fun _ => ?_
    by_cases h : d' = d ∧ i' = i
    · obtain ⟨rfl, rfl⟩ := h
      rw [entry_poke_self, hw, hnone]
      constructor
      · rintro ⟨t, ht, hq⟩
        cases ht
        rw [entry_poke_of_ne fun h => hpd h.1, hzero] at hq
        cases hq
      · rintro ⟨t, ht, -⟩
        cases ht
    · rw [hentry h]
      refine exists_congr fun t => and_congr_right fun ht => ?_
      rw [entry_poke_of_ne]
      rintro ⟨rfl, -⟩
      cases hdir.symm.trans (hs.own_table hact' ht)
  refine hs.move rfl (fun _ _ => hs.ram p _ hown) (hs.chain_poke (hs.not_free hdir nofun))
    (fun d i => hs.dir_update (by rw [hown]; nofun) _) (fun o => ?_) fun q hq o => ?_
  · cases o with
    | free => exact iff_of_false (hs.not_free hown nofun) nofun
    | kept u => simp [Names, Ghost.attach]
    | table d' i' =>
      by_cases h : d' = d ∧ i' = i
      · obtain ⟨rfl, rfl⟩ := h
        refine iff_of_true ⟨hact, ?_⟩ rfl
        rw [entry_poke_self, hw]
      · refine (htable h).trans (iff_of_false (fun hn => ?_) fun heq => h ?_)
        · cases hs.unique hown _ hn
        · cases heq
          exact ⟨rfl, rfl⟩
    | user d' i' j' =>
      refine huser.trans (iff_of_false (fun hn => ?_) nofun)
      cases hs.unique hown _ hn
  · cases o with
    | free => exact Iff.rfl
    | kept u => simp [Names, Ghost.attach, hq]
    | table d' i' =>
      by_cases h : d' = d ∧ i' = i
      · obtain ⟨rfl, rfl⟩ := h
        refine iff_of_false (fun hn => hq ?_) fun hn => ?_
        · have heq := hn.2
          rw [entry_poke_self, hw] at heq
          exact (Option.some.inj heq).symm
        · rw [Names, hnone] at hn
          cases hn.2
      · exact htable h
    | user d' i' j' => exact huser

theorem found (hs : Books y s g) (hown : g.own d = some (.kept .held)) (hzero : ∀ i, entry s d i = none) :
    Books y s (g.found d) := by
  have hold : ∀ {i}, ¬g.active d i := by
    intro i h
    cases hown.symm.trans (hs.own_dir h)
  have htable : ∀ {d' i' q}, Names s (g.found d) (.table d' i') q ↔ Names s g (.table d' i') q := by
    intro d' i' q
    show (d' = d ∨ g.active d' i') ∧ _ ↔ g.active d' i' ∧ _
    constructor
    · rintro ⟨rfl | h, hq⟩
      · rw [hzero] at hq
        cases hq
      · exact ⟨h, hq⟩
    · rintro ⟨h, hq⟩
      exact ⟨.inr h, hq⟩
  have huser : ∀ {d' i' j' q}, Names s (g.found d) (.user d' i' j') q ↔ Names s g (.user d' i' j') q := by
    intro d' i' j' q
    show (d' = d ∨ g.active d' i') ∧ _ ↔ g.active d' i' ∧ _
    constructor
    · rintro ⟨rfl | h, hi, t, ht, hq⟩
      · rw [hzero] at ht
        cases ht
      · exact ⟨h, hi, t, ht, hq⟩
    · rintro ⟨h, hq⟩
      exact ⟨.inr h, hq⟩
  refine hs.move rfl (fun _ _ => hs.ram d _ hown) hs.chain ?_ (fun o => ?_) fun q hq o => ?_
  · rintro d' i' (rfl | h)
    · exact update_self ..
    · show update g.kept d _ d' = _
      rw [update_of_ne]
      · exact hs.dir d' i' h
      · rintro rfl
        exact hold h
  · cases o with
    | free => exact iff_of_false (hs.not_free hown nofun) nofun
    | kept u => simp [Names, Ghost.found]
    | table d' i' =>
      refine htable.trans (iff_of_false (fun hn => ?_) nofun)
      cases hs.unique hown _ hn
    | user d' i' j' =>
      refine huser.trans (iff_of_false (fun hn => ?_) nofun)
      cases hs.unique hown _ hn
  · cases o with
    | free => exact Iff.rfl
    | kept u => simp [Names, Ghost.found, hq]
    | table d' i' => exact htable
    | user d' i' j' => exact huser

theorem drop (hs : Books y s g) (hnone : entry s d i = none) : Books y s (g.deactivate d i) where
  chain := hs.chain
  owner q o := by
    have hact : ∀ {d' i' t}, entry s d' i' = some t → ((g.deactivate d i).active d' i' ↔ g.active d' i') := by
      intro d' i' t ht
      refine and_iff_left ?_
      rintro ⟨rfl, rfl⟩
      cases hnone.symm.trans ht
    rw [show (g.deactivate d i).own q = g.own q from rfl, hs.owner]
    cases o with
    | free => exact Iff.rfl
    | kept u => exact Iff.rfl
    | table d' i' => exact (and_congr_left hact).symm
    | user d' i' j' => exact (and_congr_left fun h => hact h.2.choose_spec.1).symm
  ram := hs.ram
  dir d i h := hs.dir d i h.1

theorem detach (hs : Books y s g) (hact : g.active d i) (ht : entry s d i = some t)
    (huser : ∀ j q, ¬Names s g (.user d i j) q) : Books y s ((g.deactivate d i).unmap t) := by
  have hown := hs.own_table hact ht
  have huser : ∀ {d' i' j' q}, Names s ((g.deactivate d i).unmap t) (.user d' i' j') q ↔
      Names s g (.user d' i' j') q := by
    intro d' i' j' q
    refine ⟨fun h => ⟨h.1.1, h.2⟩, fun h => ⟨⟨h.1, ?_⟩, h.2⟩⟩
    rintro ⟨rfl, rfl⟩
    exact huser _ _ h
  refine hs.move rfl (fun _ _ => hs.ram t _ hown) hs.chain
    (fun d i h => hs.dir_update (by rw [hown]; nofun) _ h.1) (fun o => ?_) fun q hq o => ?_
  · cases o with
    | free => exact iff_of_false (hs.not_free hown nofun) nofun
    | kept u => simp [Names, Ghost.unmap]
    | table d' i' =>
      refine iff_of_false (fun h => ?_) nofun
      cases hs.unique hown (.table d' i') ⟨h.1.1, h.2⟩
      exact h.1.2 ⟨rfl, rfl⟩
    | user d' i' j' =>
      refine huser.trans (iff_of_false (fun h => ?_) nofun)
      cases hs.unique hown _ h
  · cases o with
    | free => exact Iff.rfl
    | kept u => simp [Names, Ghost.unmap, Ghost.deactivate, hq]
    | table d' i' =>
      refine ⟨fun h => ⟨h.1.1, h.2⟩, fun h => ⟨⟨h.1, ?_⟩, h.2⟩⟩
      rintro ⟨rfl, rfl⟩
      exact hq (Option.some.inj (h.2.symm.trans ht))
    | user d' i' j' => exact huser

end Books

end Xv6.Vm
