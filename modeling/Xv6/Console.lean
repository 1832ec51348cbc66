import Mathlib
import Xv6.RingBuffer
import Xv6.Transition

/- The line discipline of the console (console.c).

   Characters come in through `consoleintr`, and any number of processes read them with
   `consoleread`. Both work on one ring, under one lock: from `r` to `w` lie the characters
   that are committed and not read yet, from `w` to `e` those of the line that is being edited.
   A step is one interrupt, with the characters that `getc` returns, or what a reader does from when it
   has the lock to when it releases it or goes to sleep. What is echoed on the screen is left out.

   Beside the ring runs what it is for: a stream of committed characters and a line that can be
   edited (`Line`), and the list of what the readers have been given (`Delivery`).

   1. Each operation on the ring is one on the two lists that lie in it (`Holds`).
   2. `console_delivers_stream`: in every run what the readers were given and what is unread are
      the committed stream, and what a read returns is what its reader was given.

   Correspondence (C ↔ Lean):
     `input`                           ↔ `Input`
     the body of the loop of `consoleintr` ↔ `Input.char`
     the loop of `consoleread`         ↔ `readLoop`
     a process asleep on `&input.r`    ↔ `Task.reading`
     `-1`                              ↔ `none` -/
namespace Xv6.Console
open Function List Bits RingBuffer Transition
open BitVec (ofNat)

def INPUT_BUF : Nat := 128

instance : NeZero INPUT_BUF := ⟨by decide⟩

/-- `C('D')`, `C('H')`, `C('P')`, `C('U')` -/
def ctrlD : Byte := 4
def ctrlH : Byte := 8
def ctrlP : Byte := 16
def ctrlU : Byte := 21
def delete : Byte := 0x7f
def newline : Byte := 10
def carriageReturn : Byte := 13

structure Input where
  buf : Fin INPUT_BUF → Byte
  /-- Read index -/
  r : Word
  /-- Write index -/
  w : Word
  /-- Edit index -/
  e : Word

/-! ## consoleintr -/

namespace Input

/-- Kill line: at most so many rounds of the loop. -/
def killFrom : Nat → Input → Input
  | 0, i => i
  | fuel + 1, i =>
    if i.e ≠ i.w ∧ i.buf (cell INPUT_BUF (i.e - 1)) ≠ newline then killFrom fuel { i with e := i.e - 1 } else i

/-- Every round takes a character, so there are no more rounds than characters. -/
def killLine (i : Input) : Input := killFrom (gap i.w i.e) i

def backspace (i : Input) : Input := if i.e ≠ i.w then { i with e := i.e - 1 } else i

/-- `input.buf[input.e++ % INPUT_BUF] = c` -/
def store (i : Input) (c : Byte) : Input :=
  { i with buf := update i.buf (cell INPUT_BUF i.e) c, e := i.e + 1 }

def commit (i : Input) : Input := { i with w := i.e }

/-- Another character that is typed. -/
def accept (i : Input) (c : Byte) : Input :=
  if c ≠ 0 ∧ i.e - i.r < ofNat 32 INPUT_BUF then
    let c := if c = carriageReturn then newline else c
    let i := i.store c
    if c = newline ∨ c = ctrlD ∨ i.e = i.r + ofNat 32 INPUT_BUF then i.commit else i
  else i

def char (i : Input) (c : Byte) : Input :=
  if c = ctrlP then i
  else if c = ctrlU then i.killLine
  else if c = ctrlH ∨ c = delete then i.backspace
  else i.accept c

end Input

/-! ## consoleread -/

inductive ReadEnd where
  | done
  | eof
  | failed
  | sleeps (n : Nat)

/-- The loop of `consoleread` for `n` of `target` characters, with those that it copies. -/
def readLoop (killed : Bool) (target : Nat) : Nat → Input → Input × List Byte × ReadEnd
  | 0, i => (i, [], .done)
  | n + 1, i =>
    if i.r = i.w then (i, [], if killed then .failed else .sleeps (n + 1))
    else
      let c := i.buf (cell INPUT_BUF i.r)
      let i := { i with r := i.r + 1 }
      if c = ctrlD then
        -- Save ^D for next time, to make sure caller gets a 0-byte result.
        if n + 1 < target then ({ i with r := i.r - 1 }, [], .done) else (i, [], .eof)
      else if c = newline then (i, [c], .done)
      else
        let x := readLoop killed target n i
        (x.1, c :: x.2.1, x.2.2)

/-! ## The stream -/

/-- What has been committed, and the line being edited. -/
structure Line where
  committed : List Byte
  line : List Byte

namespace Line

/-- A character is typed when `free` more characters can be kept. -/
def accept (l : Line) (free : Nat) (c : Byte) : Line :=
  if c ≠ 0 ∧ 0 < free then
    let c := if c = carriageReturn then newline else c
    if c = newline ∨ c = ctrlD ∨ free = 1 then ⟨l.committed ++ (l.line ++ [c]), []⟩
    else { l with line := l.line ++ [c] }
  else l

def char (l : Line) (free : Nat) (c : Byte) : Line :=
  if c = ctrlP then l
  else if c = ctrlU then { l with line := [] }
  else if c = ctrlH ∨ c = delete then { l with line := l.line.dropLast }
  else l.accept free c

end Line

inductive Delivery where
  | byte (c : Byte)
  | eof
  deriving DecidableEq

/-- The character of the stream that is delivered so. -/
def Delivery.char : Delivery → Byte
  | .byte c => c
  | .eof => ctrlD

/-! ## Processes -/

inductive Task where
  | idle
  /-- Asleep in `consoleread`, with `n` of `target` characters still to read after `got`. -/
  | reading (target n : Nat) (got : List Byte) (awake : Bool)

/-- `wakeup(&input.r)` -/
def Task.wake : Task → Task
  | .reading target n got _ => .reading target n got true
  | .idle => .idle

variable {ρ : Type} [DecidableEq ρ]

structure State (ρ : Type) where
  input : Input
  task : ρ → Task
  /-- The call that has returned in the last step: how much it asked for, and what it was given. -/
  ret : Option (ρ × Nat × Option (List Byte))
  stream : Line
  /-- What has been given so far, each with the reader it was given to. -/
  delivered : List (ρ × Delivery)
  zeros : Nat

/-- How many more characters can be kept. -/
def State.free (s : State ρ) : Nat :=
  INPUT_BUF - (s.stream.committed.length - s.delivered.length) - s.stream.line.length

/-- One round of the loop of `consoleintr`. Readers are woken when something is committed. -/
def intrChar (s : State ρ) (c : Byte) : State ρ :=
  { s with
    input := s.input.char c
    stream := s.stream.char s.free c
    task := if (s.input.char c).w = s.input.w then s.task else Task.wake ∘ s.task
    ret := none }

def consoleintr (s : State ρ) (cs : List Byte) : State ρ := cs.foldl intrChar s

/-- `consoleread` from the head of its loop on. -/
def consoleread (killed : Bool) (q : ρ) (target n : Nat) (got : List Byte) (s : State ρ) : State ρ :=
  let x := readLoop killed target n s.input
  let got := got ++ x.2.1
  let s := { s with input := x.1, delivered := s.delivered ++ x.2.1.map (q, Delivery.byte ·) }
  let zeros := if got = [] ∧ 0 < target then s.zeros + 1 else s.zeros
  match x.2.2 with
  | .done => { s with task := update s.task q .idle, ret := some (q, target, some got), zeros }
  | .eof => { s with
      task := update s.task q .idle
      ret := some (q, target, some got)
      delivered := s.delivered ++ [(q, Delivery.eof)]
      zeros }
  | .failed => { s with task := update s.task q .idle, ret := some (q, target, none) }
  | .sleeps n => { s with task := update s.task q (.reading target n got false), ret := none }

inductive Label (ρ : Type) where
  | intr (cs : List Byte)
  | read (q : ρ) (n : Nat) (killed : Bool)
  | resume (q : ρ) (killed : Bool)

def step (s : State ρ) : Label ρ → Option (State ρ)
  | .intr cs => some (consoleintr s cs)
  | .read q n killed =>
    match s.task q with
    | .idle => some (consoleread killed q n n [] s)
    | .reading .. => none
  | .resume q killed =>
    match s.task q with
    | .reading target n got true => some (consoleread killed q target n got s)
    | _ => none

def boot : State ρ where
  input := ⟨fun _ => 0, 0, 0, 0⟩
  task := fun _ => .idle
  ret := none
  stream := ⟨[], []⟩
  delivered := []
  zeros := 0

/-! ## The ring holds two lists -/

/-- The ring holds the characters `unread` and, after them, `line`. -/
structure Holds (i : Input) (unread line : List Byte) : Prop where
  ring : window i.buf i.r (unread.length + line.length) = unread ++ line
  unreadLength : gap i.r i.w = unread.length
  lineLength : gap i.w i.e = line.length
  bound : unread.length + line.length ≤ INPUT_BUF
  /-- A newline is committed at once. -/
  editable : newline ∉ line

theorem dvd_size : INPUT_BUF ∣ 2 ^ 32 := by decide

namespace Holds

variable {i : Input} {unread line : List Byte} {c : Byte}

theorem gap_eq (h : Holds i unread line) : gap i.r i.e = unread.length + line.length := by
  have hbound := h.bound
  rw [← h.unreadLength, ← h.lineLength] at hbound ⊢
  exact gap_trans (by simp only [INPUT_BUF] at hbound; omega)

theorem edited_iff (h : Holds i unread line) : i.e ≠ i.w ↔ line ≠ [] := by
  rw [ne_comm, ne_eq, ← gap_eq_zero_iff, h.lineLength, length_eq_zero_iff]

theorem unread_iff (h : Holds i unread line) : i.r = i.w ↔ unread = [] := by
  rw [← gap_eq_zero_iff, h.unreadLength, length_eq_zero_iff]

theorem last (h : Holds i unread (line ++ [c])) :
    i.buf (cell INPUT_BUF (i.e - 1)) = c ∧ Holds { i with e := i.e - 1 } unread line := by
  have hgap := h.gap_eq
  have hline := h.lineLength
  have hring := h.ring
  have hbound := h.bound
  simp only [length_append, length_singleton, ← Nat.add_assoc] at hgap hline hring hbound
  have hpred : gap i.w (i.e - 1) + 1 = gap i.w i.e := gap_pred_right (by omega)
  have hlast : i.r + ofNat 32 (unread.length + line.length) = i.e - 1 := by
    rw [eq_comm, ← gap_eq_iff (by simp only [INPUT_BUF] at hbound; omega)]
    have : gap i.r (i.e - 1) + 1 = gap i.r i.e := gap_pred_right (by omega)
    omega
  rw [window_succ, hlast, ← append_assoc] at hring
  obtain ⟨hring, hc⟩ := append_inj' hring rfl
  refine ⟨head_eq_of_cons_eq hc, hring, h.unreadLength, ?_, by omega, ?_⟩
  · exact Nat.succ.inj (hpred.trans hline)
  · exact fun hmem => h.editable (mem_append_left _ hmem)

theorem backspace (h : Holds i unread line) : Holds i.backspace unread line.dropLast := by
  unfold Input.backspace
  rcases eq_nil_or_concat line with rfl | ⟨init, c, rfl⟩
  · rw [if_neg fun hne => h.edited_iff.mp hne rfl]
    exact h
  · rw [if_pos (h.edited_iff.mpr (by simp)), concat_eq_append, dropLast_concat]
    rw [concat_eq_append] at h
    exact h.last.2

theorem killFrom {fuel : Nat} (h : Holds i unread line) (hfuel : line.length ≤ fuel) :
    Holds (i.killFrom fuel) unread [] := by
  induction fuel generalizing i line with
  | zero =>
    obtain rfl := eq_nil_of_length_eq_zero (Nat.le_zero.mp hfuel)
    exact h
  | succ fuel ih =>
    rw [Input.killFrom]
    rcases eq_nil_or_concat line with rfl | ⟨init, c, rfl⟩
    · rw [if_neg fun hne => h.edited_iff.mp hne.1 rfl]
      exact h
    · rw [concat_eq_append] at h hfuel
      obtain ⟨hlast, hinit⟩ := h.last
      have hc : c ≠ newline := by
        rintro rfl
        exact h.editable (mem_append_right _ (mem_singleton_self _))
      rw [if_pos ⟨h.edited_iff.mpr (by simp), by rw [hlast]; exact hc⟩]
      refine ih hinit ?_
      rw [length_append, length_singleton] at hfuel
      omega

theorem killLine (h : Holds i unread line) : Holds i.killLine unread [] :=
  h.killFrom (le_of_eq h.lineLength.symm)

theorem store_ring (h : Holds i unread line) (hroom : unread.length + line.length < INPUT_BUF) (c : Byte) :
    window (i.store c).buf i.r (unread.length + line.length + 1) = unread ++ (line ++ [c]) ∧
      gap i.w (i.e + 1) = line.length + 1 := by
  have hstore := window_store dvd_size i.buf i.r hroom c
  have hcell : i.r + ofNat 32 (unread.length + line.length) = i.e := by
    rw [eq_comm, ← gap_eq_iff (by simp only [INPUT_BUF] at hroom; omega)]
    exact h.gap_eq
  rw [hcell, h.ring, append_assoc] at hstore
  have hline := h.lineLength
  refine ⟨hstore, ?_⟩
  rw [gap_succ_right (by simp only [INPUT_BUF] at hroom; omega), hline]

theorem store (h : Holds i unread line) (hroom : unread.length + line.length < INPUT_BUF) (hc : c ≠ newline) :
    Holds (i.store c) unread (line ++ [c]) := by
  obtain ⟨hring, hgap⟩ := h.store_ring hroom c
  refine ⟨?_, h.unreadLength, ?_, ?_, ?_⟩
  · rw [length_append, length_singleton, ← Nat.add_assoc]
    exact hring
  · rw [length_append, length_singleton]
    exact hgap
  · rw [length_append, length_singleton]
    omega
  · rw [mem_append, mem_singleton]
    rintro (hmem | heq)
    · exact h.editable hmem
    · exact hc heq.symm

theorem store_commit (h : Holds i unread line) (hroom : unread.length + line.length < INPUT_BUF) (c : Byte) :
    Holds (i.store c).commit (unread ++ (line ++ [c])) [] := by
  obtain ⟨hring, hgap⟩ := h.store_ring hroom c
  have hlength : (unread ++ (line ++ [c])).length = unread.length + line.length + 1 := by
    simp [Nat.add_assoc]
  refine ⟨?_, ?_, gap_self _, ?_, nofun⟩
  · rw [append_nil, length_nil, Nat.add_zero, hlength]
    exact hring
  · rw [hlength]
    change gap i.r (i.e + 1) = _
    rw [gap_succ_right (by rw [h.gap_eq]; simp only [INPUT_BUF] at hroom; omega), h.gap_eq]
  · rw [hlength, length_nil]
    exact hroom

theorem front (h : Holds i (c :: unread) line) :
    i.buf (cell INPUT_BUF i.r) = c ∧ Holds { i with r := i.r + 1 } unread line := by
  have hring := h.ring
  have hgap := h.unreadLength
  have hbound := h.bound
  simp only [length_cons] at hgap hbound
  rw [length_cons, Nat.add_right_comm, window_cons, cons_append, List.cons.injEq] at hring
  have hsucc : gap (i.r + 1) i.w + 1 = gap i.r i.w := gap_succ_left (by omega)
  exact ⟨hring.1, hring.2, Nat.succ.inj (hsucc.trans hgap), h.lineLength, by omega, h.editable⟩

theorem windows (h : Holds i unread line) :
    window i.buf i.r (gap i.r i.w) = unread ∧ window i.buf i.w (gap i.w i.e) = line := by
  have hring := h.ring
  rw [window_add, ← h.unreadLength, add_gap] at hring
  rw [h.lineLength]
  exact append_inj hring (by rw [window_length, h.unreadLength])

end Holds

/-! ## The two halves -/

/-- The stream and the ring agree, `before` having been delivered. -/
def Agree (i : Input) (l : Line) (before unread : List Byte) : Prop :=
  Holds i unread l.line ∧ l.committed = before ++ unread

section

variable {i : Input} {l : Line} {before unread : List Byte}

theorem Agree.accept (h : Agree i l before unread) (c : Byte) :
    ∃ unread', Agree (i.accept c) (l.accept (INPUT_BUF - unread.length - l.line.length) c) before unread' := by
  obtain ⟨hholds, hcommitted⟩ := h
  have hgap := hholds.gap_eq
  have hbound := hholds.bound
  have hroom : i.e - i.r < ofNat 32 INPUT_BUF ↔ 0 < INPUT_BUF - unread.length - l.line.length := by
    rw [BitVec.lt_def, ← gap, hgap]
    change _ < INPUT_BUF ↔ _
    omega
  unfold Input.accept Line.accept
  by_cases hc : c ≠ 0 ∧ i.e - i.r < ofNat 32 INPUT_BUF
  · rw [if_pos hc, if_pos (hc.imp_right hroom.mp)]
    have hlt : unread.length + l.line.length < INPUT_BUF := by
      have := hroom.mp hc.2
      omega
    generalize (if c = carriageReturn then newline else c) = c
    have hfull : (i.store c).e = (i.store c).r + ofNat 32 INPUT_BUF ↔
        INPUT_BUF - unread.length - l.line.length = 1 := by
      change i.e + 1 = i.r + _ ↔ _
      rw [← gap_eq_iff (by decide), gap_succ_right (by simp only [INPUT_BUF] at hlt; omega), hgap]
      omega
    dsimp only
    by_cases hend : c = newline ∨ c = ctrlD ∨ (i.store c).e = (i.store c).r + ofNat 32 INPUT_BUF
    · rw [if_pos hend, if_pos (hend.imp_right (Or.imp_right hfull.mp))]
      refine ⟨unread ++ (l.line ++ [c]), hholds.store_commit hlt c, ?_⟩
      rw [hcommitted, append_assoc]
    · rw [if_neg hend, if_neg fun h => hend (h.imp_right (Or.imp_right hfull.mpr))]
      exact ⟨unread, hholds.store hlt fun heq => hend (.inl heq), hcommitted⟩
  · rw [if_neg hc, if_neg fun h => hc (h.imp_right hroom.mpr)]
    exact ⟨unread, hholds, hcommitted⟩

theorem Agree.char (h : Agree i l before unread) (c : Byte) :
    ∃ unread', Agree (i.char c) (l.char (INPUT_BUF - unread.length - l.line.length) c) before unread' := by
  unfold Input.char Line.char
  split
  · exact ⟨unread, h⟩
  · split
    · exact ⟨unread, h.1.killLine, h.2⟩
    · split
      · exact ⟨unread, h.1.backspace, h.2⟩
      · exact h.accept c

end

/-- What is known when the loop of `consoleread` for `n` of `target` characters is left, with `bytes`
copied and `unread` left. -/
def ReadEnd.Fits (target n : Nat) (bytes unread : List Byte) : ReadEnd → Prop
  | .done => bytes.length = n ∨ bytes.getLast? = some newline ∨
      unread.head? = some ctrlD ∧ n < target + bytes.length
  | .eof => bytes = [] ∧ n = target ∧ 0 < n
  | .failed => True
  | .sleeps m => bytes.length + m = n ∧ 0 < m

/-- What the loop takes besides the characters it copies. -/
def ReadEnd.taken : ReadEnd → List Byte
  | .eof => [ctrlD]
  | _ => []

theorem ReadEnd.Fits.cons {target n : Nat} {bytes unread : List Byte} {e : ReadEnd} {c : Byte}
    (h : e.Fits target n bytes unread) (hn : n + 1 ≤ target) : e.Fits target (n + 1) (c :: bytes) unread := by
  cases e with
  | done =>
    rcases h with hall | hnl | ⟨hd, hpart⟩
    · exact .inl (by rw [length_cons, hall])
    · refine .inr (.inl ?_)
      rw [List.getLast?_cons, hnl]
      rfl
    · exact .inr (.inr ⟨hd, by rw [length_cons]; omega⟩)
  | eof => exact absurd h.2.1 (by omega)
  | failed => trivial
  | sleeps m => exact ⟨by rw [length_cons, Nat.add_right_comm, h.1], h.2⟩

theorem readLoop_holds (killed : Bool) {target n : Nat} {i : Input} {unread line : List Byte} (h : Holds i unread line)
    (hn : n ≤ target) : ∃ unread', Holds (readLoop killed target n i).1 unread' line ∧
      unread = (readLoop killed target n i).2.1 ++ ((readLoop killed target n i).2.2.taken ++ unread') ∧
      ctrlD ∉ (readLoop killed target n i).2.1 ∧
      (readLoop killed target n i).2.2.Fits target n (readLoop killed target n i).2.1 unread' := by
  induction n generalizing i unread with
  | zero => exact ⟨unread, h, rfl, nofun, .inl rfl⟩
  | succ n ih =>
    rw [readLoop]
    by_cases hempty : i.r = i.w
    · rw [if_pos hempty]
      cases killed
      · exact ⟨unread, h, rfl, nofun, Nat.zero_add _, Nat.succ_pos n⟩
      · exact ⟨unread, h, rfl, nofun, trivial⟩
    · rw [if_neg hempty]
      cases unread with
      | nil => exact absurd (h.unread_iff.mpr rfl) hempty
      | cons c unread =>
        obtain ⟨hc, hpop⟩ := h.front
        rw [hc]
        dsimp only
        by_cases hd : c = ctrlD
        · rw [if_pos hd]
          subst hd
          by_cases hpart : n + 1 < target
          · have hback : ({ i with r := i.r + 1 - 1 } : Input) = i := by
              rw [BitVec.add_sub_cancel]
            rw [if_pos hpart, hback]
            exact ⟨_, h, rfl, nofun, .inr (.inr ⟨rfl, hpart⟩)⟩
          · rw [if_neg hpart]
            exact ⟨unread, hpop, rfl, nofun, rfl, by omega, Nat.succ_pos n⟩
        · rw [if_neg hd]
          by_cases hnl : c = newline
          · rw [if_pos hnl]
            subst hnl
            exact ⟨unread, hpop, rfl, by simpa using hd ∘ Eq.symm, .inr (.inl rfl)⟩
          · rw [if_neg hnl]
            obtain ⟨unread', hholds, hunread, hclean, hfits⟩ := ih hpop (by omega)
            refine ⟨unread', hholds, by rw [cons_append, ← hunread], ?_, ?_⟩
            · rw [mem_cons]
              rintro (heq | hmem)
              · exact hd heq.symm
              · exact hclean hmem
            · exact hfits.cons (by omega)

/-! ## Runs -/

def State.given (s : State ρ) : List Delivery := s.delivered.map (·.2)

/-- The last that process `q` was given are these characters. -/
def GivenTo (delivered : List (ρ × Delivery)) (q : ρ) (bytes : List Byte) : Prop :=
  bytes.map Delivery.byte <:+ (delivered.filter (·.1 = q)).map (·.2)

/-- What is known of a read of something that has returned: if it returns nothing, it has taken a `^D`;
otherwise it returns what it was given, which is all it asked for, or up to a newline, or a `^D` is
next. -/
def Returned (ret : Option (ρ × Nat × Option (List Byte))) (delivered : List (ρ × Delivery))
    (unread : List Byte) : Prop :=
  ∀ q target bytes, ret = some (q, target, some bytes) → 0 < target →
    (bytes = [] → delivered.getLast? = some (q, .eof)) ∧
    (bytes ≠ [] → GivenTo delivered q bytes ∧
      (bytes.length = target ∨ bytes.getLast? = some newline ∨ unread.head? = some ctrlD))

/-- A read that is asleep has been given what it has got, and has more to read. -/
def Task.Reads (delivered : List (ρ × Delivery)) (q : ρ) : Task → Prop
  | .idle => True
  | .reading target n got _ => GivenTo delivered q got ∧ got.length + n = target ∧ 0 < n

theorem Task.Reads.wake {delivered : List (ρ × Delivery)} {q : ρ} {t : Task} (h : t.Reads delivered q) :
    t.wake.Reads delivered q := by
  cases t with
  | idle => trivial
  | reading => exact h

structure Inv (s : State ρ) (unread : List Byte) : Prop where
  agree : Agree s.input s.stream (s.given.map Delivery.char) unread
  bytes : Delivery.byte ctrlD ∉ s.given
  tasks : ∀ q, (s.task q).Reads s.delivered q
  zeros : s.zeros = s.given.count .eof
  ret : Returned s.ret s.delivered unread

theorem GivenTo.append {delivered : List (ρ × Delivery)} {q : ρ} {got : List Byte} (h : GivenTo delivered q got)
    (bytes : List Byte) : GivenTo (delivered ++ bytes.map (q, Delivery.byte ·)) q (got ++ bytes) := by
  have hfilter : ((bytes.map (q, Delivery.byte ·)).filter (·.1 = q)).map (·.2) = bytes.map Delivery.byte := by
    simp [filter_map, Function.comp_def]
  rw [GivenTo, map_append, filter_append, map_append, hfilter]
  exact (suffix_append_inj_of_length_eq rfl).mpr ⟨h, rfl⟩

theorem Task.Reads.append {delivered new : List (ρ × Delivery)} {q q' : ρ} {t : Task} (h : t.Reads delivered q')
    (hnew : ∀ x ∈ new, x.1 = q) (hne : q' ≠ q) : t.Reads (delivered ++ new) q' := by
  have hfilter : new.filter (·.1 = q') = [] := by
    rw [filter_eq_nil_iff]
    intro x hx
    rw [hnew x hx]
    simpa using Ne.symm hne
  cases t with
  | idle => trivial
  | reading target n got awake =>
    refine ⟨?_, h.2⟩
    rw [GivenTo, filter_append, hfilter, append_nil]
    exact h.1

theorem reads_update {task : ρ → Task} {delivered new : List (ρ × Delivery)} (h : ∀ q, (task q).Reads delivered q)
    {q : ρ} (hnew : ∀ x ∈ new, x.1 = q) {t : Task} (ht : t.Reads (delivered ++ new) q) (q' : ρ) :
    (update task q t q').Reads (delivered ++ new) q' := by
  rw [update_apply]
  split
  · next heq =>
    rw [heq]
    exact ht
  · next hne => exact (h q').append hnew hne

section

variable {s : State ρ} {unread : List Byte}

theorem Inv.free_eq (hs : Inv s unread) : s.free = INPUT_BUF - unread.length - s.stream.line.length := by
  rw [State.free, hs.agree.2, length_append, length_map, State.given, length_map,
    Nat.add_sub_cancel_left]

theorem Inv.intrChar (hs : Inv s unread) (c : Byte) : ∃ unread', Inv (intrChar s c) unread' := by
  obtain ⟨unread', hagree⟩ := hs.agree.char c
  rw [← hs.free_eq] at hagree
  refine ⟨unread', hagree, hs.bytes, fun q => ?_, hs.zeros, nofun⟩
  unfold Console.intrChar
  dsimp only
  split
  · exact hs.tasks q
  · exact (hs.tasks q).wake

theorem Inv.consoleintr (hs : Inv s unread) (cs : List Byte) : ∃ unread', Inv (consoleintr s cs) unread' := by
  induction cs generalizing s unread with
  | nil => exact ⟨unread, hs⟩
  | cons c cs ih =>
    obtain ⟨unread', hs'⟩ := hs.intrChar c
    exact ih hs'

theorem map_char_byte (bytes : List Byte) : (bytes.map Delivery.byte).map Delivery.char = bytes := by
  rw [map_map]
  exact map_id bytes

theorem count_eof_byte (bytes : List Byte) : (bytes.map Delivery.byte).count .eof = 0 := by
  rw [count_eq_zero, mem_map]
  rintro ⟨c, -, heq⟩
  cases heq

theorem Inv.consoleread (hs : Inv s unread) {killed : Bool} {q : ρ} {target n : Nat} {got : List Byte}
    (hgot : got.length + n = target) (hn : got ≠ [] → 0 < n) (hgiven : GivenTo s.delivered q got) :
    ∃ unread', Inv (consoleread killed q target n got s) unread' := by
  have hloop := readLoop_holds killed hs.agree.1 (by omega : n ≤ target)
  unfold Console.consoleread
  generalize readLoop killed target n s.input = x at hloop
  obtain ⟨i, bytes, e⟩ := x
  obtain ⟨unread', hholds, hunread, hclean, hfits⟩ := hloop
  dsimp only at hholds hunread hclean hfits ⊢
  refine ⟨unread', ?_⟩
  have hmap : (s.delivered ++ bytes.map (q, Delivery.byte ·)).map (·.2) = s.given ++ bytes.map Delivery.byte := by
    simp [State.given, Function.comp_def]
  have hstream : s.stream.committed =
      ((s.delivered ++ bytes.map (q, Delivery.byte ·)).map (·.2)).map Delivery.char ++ (e.taken ++ unread') := by
    rw [hs.agree.2, hmap, map_append, map_char_byte, append_assoc, ← hunread]
  have hbytes : Delivery.byte ctrlD ∉ (s.delivered ++ bytes.map (q, Delivery.byte ·)).map (·.2) := by
    rw [hmap, mem_append, mem_map]
    rintro (hmem | ⟨c, hmem, heq⟩)
    · exact hs.bytes hmem
    · cases heq
      exact hclean hmem
  have hcount : s.zeros = ((s.delivered ++ bytes.map (q, Delivery.byte ·)).map (·.2)).count .eof := by
    rw [hmap, count_append, count_eof_byte, Nat.add_zero, hs.zeros]
  have hmine : GivenTo (s.delivered ++ bytes.map (q, Delivery.byte ·)) q (got ++ bytes) := hgiven.append bytes
  have hnew : ∀ x ∈ bytes.map (q, Delivery.byte ·), x.1 = q := by
    simp
  cases e with
  | done =>
    have hsome : ¬(got ++ bytes = [] ∧ 0 < target) := by
      rintro ⟨hnil, htarget⟩
      obtain ⟨rfl, rfl⟩ := List.append_eq_nil_iff.mp hnil
      rw [length_nil] at hgot
      rcases hfits with hall | hnl | ⟨-, hpart⟩
      · rw [length_nil] at hall
        omega
      · cases hnl
      · rw [length_nil] at hpart
        omega
    rw [if_neg hsome]
    refine ⟨⟨hholds, hstream⟩, hbytes, reads_update hs.tasks hnew trivial, hcount, ?_⟩
    rintro _ _ _ ⟨⟩ htarget
    refine ⟨fun hnil => absurd ⟨hnil, htarget⟩ hsome, fun _ => ⟨hmine, ?_⟩⟩
    rcases hfits with hall | hnl | ⟨hd, -⟩
    · left
      rw [length_append, hall, hgot]
    · right; left
      rw [List.getLast?_append, hnl]
      rfl
    · exact .inr (.inr hd)
  | eof =>
    obtain ⟨rfl, hall, hpos⟩ := hfits
    obtain rfl : got = [] := eq_nil_of_length_eq_zero (by omega)
    rw [if_pos ⟨rfl, by omega⟩]
    simp only [map_nil, append_nil] at hstream hbytes hcount ⊢
    have heof : ∀ x ∈ [(q, Delivery.eof)], x.1 = q := by
      simp
    refine ⟨⟨hholds, ?_⟩, ?_, reads_update (t := .idle) hs.tasks heof trivial, ?_, ?_⟩
    · rw [State.given, map_append, map_append, append_assoc]
      exact hstream
    · rw [State.given, map_append, mem_append]
      exact fun h => h.elim hbytes (by simp)
    · rw [State.given, map_append, count_append, ← hcount]
      rfl
    · rintro _ _ _ ⟨⟩ -
      exact ⟨fun _ => List.getLast?_concat, fun hne => absurd rfl hne⟩
  | failed => exact ⟨⟨hholds, hstream⟩, hbytes, reads_update hs.tasks hnew trivial, hcount, nofun⟩
  | sleeps m =>
    refine ⟨⟨hholds, hstream⟩, hbytes, reads_update hs.tasks hnew ⟨hmine, ?_, hfits.2⟩, hcount, nofun⟩
    rw [length_append, Nat.add_assoc, hfits.1, hgot]

theorem step_inv {s' : State ρ} {l : Label ρ} (hs : Inv s unread) (hstep : step s l = some s') :
    ∃ unread', Inv s' unread' := by
  cases l with
  | intr cs =>
    cases hstep
    exact hs.consoleintr cs
  | read q n killed =>
    rw [step] at hstep
    split at hstep
    · cases hstep
      exact hs.consoleread (Nat.zero_add n) (fun hne => absurd rfl hne) nil_suffix
    · cases hstep
  | resume q killed =>
    rw [step] at hstep
    split at hstep
    · rename_i target n got htask
      cases hstep
      have hreads := hs.tasks q
      rw [htask] at hreads
      exact hs.consoleread hreads.2.1 (fun _ => hreads.2.2) hreads.1
    · cases hstep

end

/-- What has been committed stays committed. -/
def Kept (s s' : State ρ) : Prop := s.stream.committed <+: s'.stream.committed

/-- What is delivered in a step of a read that has got `got` so far: the characters that are added to what it
has got, whether it goes to sleep or returns, and a `^D` if it returns nothing. -/
def Hands (q : ρ) (got : List Byte) (s s' : State ρ) : Prop :=
  ∃ bytes, (∀ target n got' awake, s'.task q = .reading target n got' awake → got' = got ++ bytes) ∧
    (∀ target bytes', s'.ret = some (q, target, some bytes') → bytes' = got ++ bytes) ∧
    (s'.delivered = s.delivered ++ bytes.map (q, Delivery.byte ·) ∨
      bytes = [] ∧ s'.delivered = s.delivered ++ [(q, .eof)])

/-- Only reads deliver anything. -/
def Delivers (s : State ρ) (l : Label ρ) (s' : State ρ) : Prop :=
  match l with
  | .intr _ => s'.delivered = s.delivered
  | .read q _ _ => Hands q [] s s'
  | .resume q _ => ∀ target n got awake, s.task q = .reading target n got awake → Hands q got s s'

theorem committed_prefix_char (l : Line) (free : Nat) (c : Byte) : l.committed <+: (l.char free c).committed := by
  unfold Line.char Line.accept
  dsimp only
  split_ifs <;> first | exact prefix_rfl | exact prefix_append _ _

omit [DecidableEq ρ] in
theorem consoleintr_kept (s : State ρ) (cs : List Byte) :
    Kept s (consoleintr s cs) ∧ (consoleintr s cs).delivered = s.delivered := by
  induction cs generalizing s with
  | nil => exact ⟨prefix_rfl, rfl⟩
  | cons c cs ih =>
    obtain ⟨hcommitted, hdelivered⟩ := ih (intrChar s c)
    exact ⟨(committed_prefix_char s.stream s.free c).trans hcommitted, hdelivered⟩

theorem consoleread_kept (killed : Bool) (q : ρ) (target n : Nat) (got : List Byte) (s : State ρ) :
    Kept s (consoleread killed q target n got s) := by
  unfold consoleread
  dsimp only
  split <;> exact prefix_rfl

theorem hands_consoleread {unread : List Byte} {killed : Bool} {q : ρ} {target n : Nat} {got : List Byte}
    {s : State ρ} (hs : Inv s unread) (hn : n ≤ target) : Hands q got s (consoleread killed q target n got s) := by
  obtain ⟨unread', -, -, -, hfits⟩ := readLoop_holds killed hs.agree.1 hn
  refine ⟨(readLoop killed target n s.input).2.1, ?_⟩
  unfold consoleread
  dsimp only
  split
  · exact ⟨by simp, by simp, .inl rfl⟩
  · next heof =>
    rw [heof] at hfits
    exact ⟨by simp, by simp, .inr ⟨hfits.1, by simp [hfits.1]⟩⟩
  · exact ⟨by simp, by simp, .inl rfl⟩
  · exact ⟨by simp, by simp, .inl rfl⟩

theorem step_kept {unread : List Byte} {s s' : State ρ} {l : Label ρ} (hs : Inv s unread)
    (hstep : step s l = some s') : Kept s s' ∧ Delivers s l s' := by
  cases l with
  | intr cs =>
    cases hstep
    exact consoleintr_kept s cs
  | read q n killed =>
    rw [step] at hstep
    split at hstep <;> cases hstep
    exact ⟨consoleread_kept .., hands_consoleread hs (Nat.le_refl n)⟩
  | resume q killed =>
    rw [step] at hstep
    split at hstep
    · next target n got htask =>
      cases hstep
      have hreads := hs.tasks q
      rw [htask] at hreads
      refine ⟨consoleread_kept .., fun target' n' got' awake h => ?_⟩
      cases htask.symm.trans h
      exact hands_consoleread hs (by have := hreads.2.1; omega)
    · cases hstep

theorem boot_inv : Inv (boot : State ρ) [] where
  agree := ⟨⟨rfl, gap_self 0, gap_self 0, Nat.zero_le _, nofun⟩, rfl⟩
  bytes := nofun
  tasks := fun _ => trivial
  zeros := rfl
  ret := nofun

/-- In every run of interrupts and reads, also past the wrap of the indices: the indices are in order and
span no more than the ring; what the readers have been given, with a `^D` for each end of file, and
what lies from `r` to `w` are the committed stream, and what lies from `w` to `e` is the line being
edited; no `^D` is ever given as a character; there are as many reads of nothing as ends of file; a read
that returns, returns what it was given, as much as `Returned` says, and one that sleeps has been given what
it has got; no step takes back what has been committed; and a step delivers what it adds to what its read
has got or returns, and a `^D` only to a read that returns nothing. -/
theorem console_delivers_stream (ls : List (Label ρ)) :
    Always step (fun s : State ρ =>
      gap s.input.r s.input.w + gap s.input.w s.input.e = gap s.input.r s.input.e ∧
      gap s.input.r s.input.e ≤ INPUT_BUF ∧
      s.stream.committed =
        s.given.map Delivery.char ++ window s.input.buf s.input.r (gap s.input.r s.input.w) ∧
      s.stream.line = window s.input.buf s.input.w (gap s.input.w s.input.e) ∧
      Delivery.byte ctrlD ∉ s.given ∧
      s.zeros = s.given.count .eof ∧
      Returned s.ret s.delivered (window s.input.buf s.input.r (gap s.input.r s.input.w)) ∧
      ∀ q, (s.task q).Reads s.delivered q) boot ls ∧
    Along step (fun s l => ∀ s', step s l = some s' → Kept s s' ∧ Delivers s l s') (boot : State ρ) ls := by
  refine always_of_invariant (fun s => ∃ unread, Inv s unread) (C := fun _ _ => True) ?_ ?_ ?_ ⟨[], boot_inv⟩
    (along_of_forall (fun _ _ => trivial) boot ls)
  · rintro s l s' ⟨unread, hs⟩ - hstep
    exact step_inv hs hstep
  · rintro s ⟨unread, hs⟩
    obtain ⟨hholds, hstream⟩ := hs.agree
    obtain ⟨hunread, hline⟩ := hholds.windows
    rw [hunread, hline, hholds.unreadLength, hholds.lineLength, hholds.gap_eq]
    exact ⟨rfl, hholds.bound, hstream, rfl, hs.bytes, hs.zeros, hs.ret, hs.tasks⟩
  · rintro s l ⟨unread, hs⟩ - s' hstep
    exact step_kept hs hstep

-- A reader asleep for five characters is given a line that was edited, and then an end of file.
example : (run step (boot : State (Fin 1))
    [.read 0 5 false, .intr [97, 98, ctrlH, 99, carriageReturn, ctrlD], .resume 0 false, .read 0 5 false]).map
      (fun s => (s.given, s.ret)) =
    some ([.byte 97, .byte 99, .byte newline, .eof], some (0, 5, some [])) := rfl

end Xv6.Console
