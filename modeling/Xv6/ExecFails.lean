import Xv6.ExecStack

/- What a failed `exec` leaves behind.

   What `exec` changes of the process before it commits are the signal handlers alone, and all that it stores to are
   pages that were free (`exec_rule`), unless a string takes the stack pointer to where there is no page table: then
   the word at address 0 of the process is taken for the entry (`uva2ka_null`), and if it names a page, the string is
   stored there.

   1. `failed_exec_changes_nothing_iff`: after a call that returns -1 the process is as it was if and only if it had no
      handlers to reset, and its memory is, unless a string was stored to a page that it named so.
   2. `failed_exec_resets_handlers`: a process with a handler loses it. -/
namespace Xv6.Vm
open List Bits Command Transition

variable {argv : List (List Byte)}
variable {y : Layout} {d cur p : Ppn} {s s₀ : Kernel} {g g₀ : Ghost} {sz : Nat} {E : Stop → Prop}

/-! ## The task -/

theorem resetHandlers_eq_iff {handlers : Sig → Word} :
    resetHandlers handlers = handlers ↔ ∀ i, handlers i = SIG_DFL ∨ handlers i = SIG_IGN := by
  constructor
  · intro h i
    have hi := congrFun h i
    by_contra hnot
    rw [resetHandlers, if_pos (not_or.mp hnot)] at hi
    exact hnot (.inl hi.symm)
  · intro h
    funext i
    exact if_neg fun hnot => (h i).elim hnot.1 hnot.2

theorem exec_task {curproc r : Task} {ip : Option Inode} {path : List Byte} {t : Kernel}
    (hcall : exec y curproc ip path argv s = .ok ((false, r), t)) :
    r = { curproc with handlers := resetHandlers curproc.handlers } := by
  have hwp : wp (exec y curproc ip path argv) (fun r _ => r.1 = false →
      r.2 = { curproc with handlers := resetHandlers curproc.handlers }) (fun _ => True) s := by
    unfold exec
    dsimp only
    split
    · exact fun _ => rfl
    split
    · exact fun _ => rfl
    split
    · exact fun _ => rfl
    split
    · exact fun _ => rfl
    rw [wp_bind]
    refine wp_imp wp_trivial fun r s₁ _ => ?_
    cases r with
    | none => exact fun _ => rfl
    | some d =>
      show wp (image y _ _ d _ argv >>= _) _ _ s₁
      rw [wp_bind]
      refine wp_imp wp_trivial fun r s₂ _ => ?_
      cases r with
      | none =>
        show wp (freevm y d >>= _) _ _ s₂
        rw [wp_bind]
        exact wp_imp wp_trivial fun _ _ _ _ => rfl
      | some r =>
        show wp (freevm y curproc.pgdir >>= _) _ _ s₂
        rw [wp_bind]
        exact wp_imp wp_trivial fun _ _ _ => nofun
  exact wp_ok hwp hcall rfl

/-! ## Its memory -/

/-- The word at address 0 of the process, taken for an entry, names no page of the user. -/
def NullNamesNone (s : Kernel) (cur : Ppn) : Prop :=
  ∀ p, translate s cur 0 = some p → ¬(present (s.mem p 0) = true ∧ s.mem p 0 &&& PTE_U ≠ 0)

theorem uva2ka_null {Q : Option Ppn → Kernel → Prop} {a : Vpn} (ht : entry s d (pdx a) = none) :
    wp (uva2ka cur d a) Q E s ↔
      match translate s cur 0 with
      | some p => Q (if present (s.mem p 0) ∧ s.mem p 0 &&& PTE_U ≠ 0 then some (addr (s.mem p 0)) else none) s
      | none => E .trap := by
  rw [uva2ka, wp_bind, walkpgdir_false, ht]
  show wp (gets _ >>= _) _ E s ↔ _
  rw [wp_bind, wp_gets]
  cases translate s cur 0 <;> rfl

theorem Loaded.copyout_null {m : Word} {buf : List Byte} (h : Loaded y d s₀ g₀ sz s g) (hpos : 0 < buf.length)
    (hhole : Hole m) (hnull : NullNamesNone s cur) :
    wp (copyoutWith (uva2ka cur d) m buf) (fun r s' => r = false ∧ s' = s) (fun _ => True) s := by
  cases buf with
  | nil => exact absurd hpos (Nat.lt_irrefl 0)
  | cons b buf =>
    rw [copyoutWith, length_cons, copyoutLoopWith, wp_bind, uva2ka_null (h.entry_hole hhole)]
    cases hp : translate s cur 0 with
    | none => trivial
    | some p =>
      dsimp only
      rw [if_neg (hnull p hp)]
      exact ⟨rfl, rfl⟩

/-- What a call of `exec` stores to, before it commits, was free. -/
theorem exec_space {curproc r : Task} {ip : Option Inode} {path : List Byte} {free : List Ppn} {t : Kernel}
    (hfree : FreeList y s free) (hpages : ∀ p, Uses s curproc.pgdir p → p ∉ free)
    (hargs : ∀ arg ∈ argv, arg.length < KERNBASE) (hclear : NoneMisses y s ip argv ∨ NullNamesNone s curproc.pgdir)
    (hcall : exec y curproc ip path argv s = .ok ((false, r), t)) :
    SameSpace s curproc.pgdir t := by
  have howned : ∀ {p}, Uses s curproc.pgdir p → (freeOnly free).own p ≠ some .free :=
    fun hp hown => hpages _ hp (freeOnly_own.mp hown).2
  have hwp : wp (exec y curproc ip path argv) (fun r s' => r.1 = false → SameSpace s curproc.pgdir s')
      (fun _ => True) s := by
    refine exec_rule hfree.books ?_ (fun s' hsame _ p hp => hsame p (howned hp)) fun _ _ _ _ _ _ _ => wp_imp wp_trivial
      fun _ _ _ => nofun
    intro d sz s₂ g₂ hloads hd hloaded
    by_cases hmiss : Misses sz argv 0 (BitVec.ofNat 32 sz)
    · -- the pages of the process are as they were, and the word at address 0 with them
      have hnull : ∀ s', Loaded y d s (freeOnly free) sz s' g₂ → NullNamesNone s' curproc.pgdir := by
        intro s' h'
        have hsame : SameSpace s curproc.pgdir s' := fun p hp => h'.frame.unchanged hfree.books hd (howned hp)
        intro p hp
        rw [translate_eq_entryOf, hsame.pte, ← translate_eq_entryOf] at hp
        rw [hsame p (.user (by decide) hp)]
        exact hclear.resolve_left (fun hclear => hclear d sz s₂ hloads hmiss) p hp
      rw [pushImage, pushImageWith, wp_bind]
      refine wp_imp (hloaded.misses (C := True) uva2kaStrict_within (fun h' hpos hhole => ?_)
        (by rw [hloaded.toNat_size]) hargs hmiss) ?_
      · exact wp_imp (h'.copyout_null hpos hhole (hnull _ h')) fun _ _ => .intro trivial
      rintro _ s' ⟨-, rfl, h', htouch⟩
      exact ⟨h', htouch⟩
    · exact hloaded.argumentPhase hargs hmiss
  exact wp_ok hwp hcall rfl

/-- **A call of `exec` that returns -1.** All of the process that `exec` could have changed is as it was if and only if
no handler had to be reset, and its directory, page tables and memory are as they were if no string takes the stack
pointer to where there is no page table, or the word at address 0 then names no page. -/
theorem failed_exec_changes_nothing_iff {curproc r : Task} {ip : Option Inode} {path : List Byte}
    {free : List Ppn} {t : Kernel} (hfree : FreeList y s free) (hpages : ∀ p, Uses s curproc.pgdir p → p ∉ free)
    (hargs : ∀ arg ∈ argv, arg.length < KERNBASE) (hcall : exec y curproc ip path argv s = .ok ((false, r), t)) :
    (r = curproc ↔ ∀ i, curproc.handlers i = SIG_DFL ∨ curproc.handlers i = SIG_IGN) ∧
      (NoneMisses y s ip argv ∨ NullNamesNone s curproc.pgdir → SameSpace s curproc.pgdir t) := by
  refine ⟨?_, fun hclear => exec_space hfree hpages hargs hclear hcall⟩
  rw [exec_task hcall, ← resetHandlers_eq_iff]
  exact ⟨fun h => congrArg Task.handlers h, fun h => by rw [h]⟩

/-- A file that ends behind an ELF header with one program header. -/
def truncated : Inode := fun k _ _ =>
  if k = 0 then some ([0x7f, 0x45, 0x4c, 0x46] ++ replicate 40 0 ++ [1, 0] ++ replicate 6 0) else none

/-- A page directory has been made when the file turns out to be too short. -/
theorem failed_exec_changes_nothing_truncated : ∃ d s r t,
    run (step smallLayout) (start smallLayout fun _ => zeroPage) [.freerange 258 425, .setupkvm,
      .allocuvm d 0 PGSIZE] = some s ∧
      exec smallLayout (onePage d fun _ => SIG_DFL) (some truncated) [] [] s.kernel = .ok ((false, r), t) ∧
      r = onePage d (fun _ => SIG_DFL) ∧ SameSpace s.kernel d t := by
  obtain ⟨d, s, g, hrun, h, hd, -, -⟩ := nearly_full (fun _ => zeroPage) (n := 100) (by decide)
  have hfails : wp (exec smallLayout (onePage d fun _ => SIG_DFL) (some truncated) [] []) (fun r _ => r.1 = false)
      (fun _ => False) s.kernel := by
    show wp (setupkvm smallLayout >>= _) _ _ s.kernel
    rw [wp_bind]
    refine wp_imp (setupkvm_wp h.books) fun r s₁ ⟨g₁, hs₁, hr⟩ => ?_
    cases r with
    | none => rfl
    | some d' =>
      show wp (freevm smallLayout d' >>= _) _ _ s₁
      rw [wp_bind]
      exact wp_imp (freevm_wp hs₁ fun i => hr.2.2.1 ▸ .inl rfl) fun _ _ _ => rfl
  obtain ⟨⟨b, r⟩, t, hcall, rfl⟩ := wp_total hfails
  obtain ⟨htask, hspace⟩ := failed_exec_changes_nothing_iff h.books.freeList
    (fun p hp => h.books.not_free_of_uses (h.all_active hd) hp) (by simp) hcall
  exact ⟨d, s, r, t, hrun, hcall, htask.mpr fun _ => .inl rfl, hspace (.inl (noneMisses_of_short h.books (by simp)))⟩

/-- A process with a handler for every signal, and a file that does not exist. -/
theorem failed_exec_resets_handlers :
    (exec smallLayout (onePage 300 fun _ => 0x1000) none [] [] ⟨fun _ => zeroPage, none⟩).map
        (fun (r, _) => (r.1, (finRange 32).map r.2.handlers)) = .ok (false, replicate 32 SIG_DFL) := by
  rfl

end Xv6.Vm
