import Mathlib
import Xv6.Bits

/- The tokenizer of the shell (`gettoken`, `peek` in sh.c).

   The text of a command lies in memory from `s` to `es`, where a NUL stands. Both functions move a
   position along it; `gettoken` also returns what kind of token it has passed and where that begins and
   ends.

   1. What the tokens of a text are (`Lexes`): symbols, `>>` where there is one, and maximal runs of
      other characters. A text has exactly one sequence of tokens (`lexes_exists_unique`).
   2. `At`: the tokens from a position on. `gettoken` passes the first of them, `peek` looks at it.

   Correspondence (C ↔ Lean):
     `while(s < es && p) s++`          ↔ `skipWhile`
     `strchr(toks, c)`                 ↔ `toks.contains c`
     `gettoken(ps, es, &q, &eq)`       ↔ `gettoken`, `Passed`
     `peek(ps, es, toks)`              ↔ `peek` -/
namespace Xv6.Sh
open List Bits

def ch (c : Char) : Byte := BitVec.ofNat 8 c.toNat

/-- Blank, `\t`, `\r`, `\n`, `\v`. -/
def whitespace : List Byte := [32, 9, 13, 10, 11]

def symbols : List Byte := [ch '<', ch '|', ch '>', ch '&', ch ';', ch '(', ch ')']

def isBlank (c : Byte) : Bool := whitespace.contains c

/-- A character of a word. -/
def isWord (c : Byte) : Bool := !whitespace.contains c && !symbols.contains c

/-! ## gettoken and peek -/

abbrev Memory := Nat → Byte

/-- At most `n` times: if `p(*s)`, `s++`. -/
def scan (m : Memory) (p : Byte → Bool) : Nat → Nat → Nat
  | 0, s => s
  | n + 1, s => if p (m s) then scan m p n (s + 1) else s

def skipWhile (m : Memory) (es : Nat) (p : Byte → Bool) (s : Nat) : Nat := scan m p (es - s) s

/-- What `gettoken` returns, and stores to `*q`, `*eq` and `*ps`. -/
structure Passed where
  ret : Byte
  q : Nat
  eq : Nat
  ps : Nat

/-- The `switch` of `gettoken`: what is returned for the token at `s`, and where that ends. -/
def passToken (m : Memory) (es s : Nat) : Byte × Nat :=
  let c := m s
  if c = 0 then (c, s)
  else if c = ch '|' ∨ c = ch '(' ∨ c = ch ')' ∨ c = ch ';' ∨ c = ch '&' ∨ c = ch '<' then (c, s + 1)
  else if c = ch '>' then
    if m (s + 1) = ch '>' then (ch '+', s + 1 + 1) else (c, s + 1)
  else (ch 'a', skipWhile m es isWord s)

def gettoken (m : Memory) (es s : Nat) : Passed :=
  let q := skipWhile m es isBlank s
  let x := passToken m es q
  ⟨x.1, q, x.2, skipWhile m es isBlank x.2⟩

def peek (m : Memory) (es s : Nat) (toks : List Byte) : Nat × Bool :=
  let s := skipWhile m es isBlank s
  (s, decide (m s ≠ 0) && toks.contains (m s))

/-! ## Tokens -/

inductive Token where
  | lt
  | bar
  | gt
  | gtgt
  | amp
  | semi
  | lpar
  | rpar
  | word (w : List Byte)
  deriving DecidableEq

/-- The character that a symbol begins with. -/
def Token.sym : Token → Option Byte
  | .lt => some (ch '<')
  | .bar => some (ch '|')
  | .gt => some (ch '>')
  | .gtgt => some (ch '>')
  | .amp => some (ch '&')
  | .semi => some (ch ';')
  | .lpar => some (ch '(')
  | .rpar => some (ch ')')
  | .word _ => none

def Token.code : Token → Byte
  | .lt => ch '<'
  | .bar => ch '|'
  | .gt => ch '>'
  | .gtgt => ch '+'
  | .amp => ch '&'
  | .semi => ch ';'
  | .lpar => ch '('
  | .rpar => ch ')'
  | .word _ => ch 'a'

/-- The tokens of a text. -/
inductive Lexes : List Byte → List Token → Prop where
  | nil : Lexes [] []
  | blank {c : Byte} {cs : List Byte} {ts : List Token} : isBlank c = true → Lexes cs ts → Lexes (c :: cs) ts
  | symbol {t : Token} {c : Byte} {cs : List Byte} {ts : List Token} :
      t.sym = some c → c ≠ ch '>' → Lexes cs ts → Lexes (c :: cs) (t :: ts)
  | gtgt {cs : List Byte} {ts : List Token} : Lexes cs ts → Lexes (ch '>' :: ch '>' :: cs) (.gtgt :: ts)
  | gt {cs : List Byte} {ts : List Token} : cs.head? ≠ some (ch '>') → Lexes cs ts → Lexes (ch '>' :: cs) (.gt :: ts)
  | word {w cs : List Byte} {ts : List Token} : w ≠ [] → (∀ c ∈ w, isWord c = true) →
      (∀ c, cs.head? = some c → isWord c = false) → Lexes cs ts → Lexes (w ++ cs) (.word w :: ts)

theorem not_isBlank_of_sym {t : Token} {c : Byte} (h : t.sym = some c) : isBlank c = false := by
  cases t <;> cases h <;> rfl

theorem not_isWord_of_sym {t : Token} {c : Byte} (h : t.sym = some c) : isWord c = false := by
  cases t <;> cases h <;> rfl

theorem not_isWord_of_isBlank {c : Byte} (h : isBlank c = true) : isWord c = false := by
  unfold isBlank at h
  rw [isWord, h]
  rfl

theorem exists_sym {c : Byte} (hb : isBlank c = false) (hw : isWord c = false) :
    ∃ t : Token, t ≠ .gtgt ∧ t.sym = some c ∧ t.code = c := by
  unfold isBlank at hb
  rw [isWord, hb, Bool.not_false, Bool.true_and, Bool.not_eq_false', contains_iff_mem] at hw
  simp only [symbols, mem_cons, not_mem_nil, or_false] at hw
  rcases hw with rfl | rfl | rfl | rfl | rfl | rfl | rfl
  · exact ⟨.lt, nofun, rfl, rfl⟩
  · exact ⟨.bar, nofun, rfl, rfl⟩
  · exact ⟨.gt, nofun, rfl, rfl⟩
  · exact ⟨.amp, nofun, rfl, rfl⟩
  · exact ⟨.semi, nofun, rfl, rfl⟩
  · exact ⟨.lpar, nofun, rfl, rfl⟩
  · exact ⟨.rpar, nofun, rfl, rfl⟩

/-! ## What a text begins with -/

section

variable {c : Byte} {cs : List Byte} {ts : List Token}

theorem lexes_nil : Lexes [] ts ↔ ts = [] := by
  constructor
  · intro h
    generalize hl : ([] : List Byte) = l at h
    cases h with
    | nil => rfl
    | word hne => exact absurd (List.append_eq_nil_iff.mp hl.symm).1 hne
    | _ => cases hl
  · rintro rfl
    exact .nil

theorem isWord_of_cons_eq {w cs' : List Byte} (hne : w ≠ []) (hw : ∀ c ∈ w, isWord c = true) (h : c :: cs = w ++ cs') :
    isWord c = true := by
  cases w with
  | nil => exact absurd rfl hne
  | cons d w =>
    cases h
    exact hw _ (mem_cons_self ..)

theorem lexes_blank (hc : isBlank c = true) : Lexes (c :: cs) ts ↔ Lexes cs ts := by
  refine ⟨fun h => ?_, .blank hc⟩
  generalize hl : c :: cs = l at h
  cases h with
  | nil => cases hl
  | blank _ h =>
    cases hl
    exact h
  | symbol hsym =>
    cases hl
    exact absurd hc (by rw [not_isBlank_of_sym hsym]; nofun)
  | gtgt =>
    cases hl
    cases hc
  | gt =>
    cases hl
    cases hc
  | word hne hw =>
    have := isWord_of_cons_eq hne hw hl
    rw [not_isWord_of_isBlank hc] at this
    cases this

theorem sym_inj {t u : Token} (ht : t.sym = some c) (hu : u.sym = some c) (hc : c ≠ ch '>') : t = u := by
  cases t <;> cases ht <;> cases u <;> first | rfl | exact absurd rfl hc | cases hu

theorem lexes_symbol {t : Token} (ht : t.sym = some c) (hc : c ≠ ch '>') :
    Lexes (c :: cs) ts ↔ ∃ us, ts = t :: us ∧ Lexes cs us := by
  constructor
  · intro h
    generalize hl : c :: cs = l at h
    cases h with
    | nil => cases hl
    | blank hb =>
      cases hl
      exact absurd hb (by rw [not_isBlank_of_sym ht]; nofun)
    | symbol hu _ h =>
      cases hl
      exact ⟨_, by rw [sym_inj hu ht hc], h⟩
    | gtgt =>
      cases hl
      exact absurd rfl hc
    | gt =>
      cases hl
      exact absurd rfl hc
    | word hne hw =>
      have := isWord_of_cons_eq hne hw hl
      rw [not_isWord_of_sym ht] at this
      cases this
  · rintro ⟨us, rfl, h⟩
    exact .symbol ht hc h

theorem lexes_gtgt : Lexes (ch '>' :: ch '>' :: cs) ts ↔ ∃ us, ts = .gtgt :: us ∧ Lexes cs us := by
  constructor
  · intro h
    generalize hl : ch '>' :: ch '>' :: cs = l at h
    cases h with
    | nil => cases hl
    | blank hb =>
      cases hl
      cases hb
    | symbol _ hc =>
      cases hl
      exact absurd rfl hc
    | gtgt h =>
      cases hl
      exact ⟨_, rfl, h⟩
    | gt hne =>
      cases hl
      exact absurd rfl hne
    | word hne hw => cases isWord_of_cons_eq hne hw hl
  · rintro ⟨us, rfl, h⟩
    exact .gtgt h

theorem lexes_gt (hcs : cs.head? ≠ some (ch '>')) :
    Lexes (ch '>' :: cs) ts ↔ ∃ us, ts = .gt :: us ∧ Lexes cs us := by
  constructor
  · intro h
    generalize hl : ch '>' :: cs = l at h
    cases h with
    | nil => cases hl
    | blank hb =>
      cases hl
      cases hb
    | symbol _ hc =>
      cases hl
      exact absurd rfl hc
    | gtgt h =>
      cases hl
      exact absurd rfl hcs
    | gt _ h =>
      cases hl
      exact ⟨_, rfl, h⟩
    | word hne hw => cases isWord_of_cons_eq hne hw hl
  · rintro ⟨us, rfl, h⟩
    exact .gt hcs h

theorem takeWhile_append_eq {p : Byte → Bool} {w : List Byte} (hw : ∀ c ∈ w, p c = true)
    (hcs : ∀ c, cs.head? = some c → p c = false) :
    (w ++ cs).takeWhile p = w ∧ (w ++ cs).dropWhile p = cs := by
  have hnil : cs.takeWhile p = [] ∧ cs.dropWhile p = cs := by
    cases cs with
    | nil => exact ⟨rfl, rfl⟩
    | cons c cs =>
      have hc := hcs c rfl
      exact ⟨takeWhile_cons_of_neg (by rw [hc]; nofun), dropWhile_cons_of_neg (by rw [hc]; nofun)⟩
  rw [takeWhile_append_of_pos hw, dropWhile_append_of_pos hw, hnil.1, hnil.2, append_nil]
  exact ⟨rfl, rfl⟩

theorem lexes_word (hc : isWord c = true) :
    Lexes (c :: cs) ts ↔
      ∃ us, ts = .word ((c :: cs).takeWhile isWord) :: us ∧ Lexes ((c :: cs).dropWhile isWord) us := by
  constructor
  · intro h
    generalize hl : c :: cs = l at h ⊢
    cases h with
    | nil => cases hl
    | blank hb =>
      cases hl
      rw [not_isWord_of_isBlank hb] at hc
      cases hc
    | symbol ht =>
      cases hl
      rw [not_isWord_of_sym ht] at hc
      cases hc
    | gtgt =>
      cases hl
      cases hc
    | gt =>
      cases hl
      cases hc
    | word hne hw hrest h =>
      obtain ⟨htake, hdrop⟩ := takeWhile_append_eq hw hrest
      rw [htake, hdrop]
      exact ⟨_, rfl, h⟩
  · rintro ⟨us, rfl, h⟩
    have hl := takeWhile_append_dropWhile (p := isWord) (l := c :: cs)
    have h := Lexes.word (w := (c :: cs).takeWhile isWord) (by rw [takeWhile_cons_of_pos hc]; nofun)
      (fun d hd => mem_takeWhile_imp hd) (fun d hd => ?_) h
    · rw [hl] at h
      exact h
    · have hstop := List.head?_dropWhile_not isWord (c :: cs)
      rw [hd] at hstop
      exact hstop

theorem lexes_cons (cs : List Byte) (hc : isBlank c = false) : ∃ t rest, rest.length < (c :: cs).length ∧
    ∀ ts, Lexes (c :: cs) ts ↔ ∃ us, ts = t :: us ∧ Lexes rest us := by
  by_cases hw : isWord c = true
  · refine ⟨_, _, ?_, fun ts => lexes_word hw⟩
    rw [dropWhile_cons_of_pos hw]
    exact Nat.lt_succ_of_le (length_dropWhile_le ..)
  · obtain ⟨t, -, ht, -⟩ := exists_sym hc (Bool.eq_false_iff.mpr hw)
    by_cases hgt : c = ch '>'
    · subst hgt
      by_cases hcs : cs.head? = some (ch '>')
      · obtain ⟨ds, rfl⟩ := List.head?_eq_some_iff.mp hcs
        refine ⟨_, ds, ?_, fun ts => lexes_gtgt⟩
        rw [length_cons, length_cons]
        omega
      · exact ⟨_, cs, Nat.lt_succ_self _, fun ts => lexes_gt hcs⟩
    · exact ⟨_, cs, Nat.lt_succ_self _, fun ts => lexes_symbol ht hgt⟩

end

theorem lexes_exists_unique (l : List Byte) : ∃ ts, ∀ us, Lexes l us ↔ us = ts := by
  induction hn : l.length using Nat.strongRecOn generalizing l with
  | ind n ih =>
    subst hn
    cases l with
    | nil => exact ⟨[], fun us => lexes_nil⟩
    | cons c cs =>
      cases hc : isBlank c with
      | true =>
        obtain ⟨ts, h⟩ := ih cs.length (Nat.lt_succ_self _) cs rfl
        exact ⟨ts, fun us => (lexes_blank hc).trans (h us)⟩
      | false =>
        obtain ⟨t, rest, hlt, hcons⟩ := lexes_cons cs hc
        obtain ⟨ts, h⟩ := ih rest.length hlt rest rfl
        refine ⟨t :: ts, fun us => ?_⟩
        rw [hcons]
        constructor
        · rintro ⟨vs, rfl, hvs⟩
          rw [(h vs).mp hvs]
        · rintro rfl
          exact ⟨ts, rfl, (h ts).mpr rfl⟩

/-! ## Positions -/

def text (m : Memory) (s e : Nat) : List Byte := (range' s (e - s)).map m

/-- A string that ends at `es`. -/
structure IsString (m : Memory) (es : Nat) : Prop where
  nonzero : ∀ i < es, m i ≠ 0
  nul : m es = 0

section

variable {m : Memory} {es s e k : Nat} {p : Byte → Bool}

@[simp] theorem text_self : text m s s = [] := by
  rw [text, Nat.sub_self]
  rfl

theorem text_cons (h : s < e) : text m s e = m s :: text m (s + 1) e := by
  obtain ⟨n, hn⟩ : ∃ n, e - s = n + 1 := ⟨e - s - 1, by omega⟩
  rw [text, hn, range'_succ, map_cons, text]
  congr 3
  omega

theorem skipWhile_spec (h : s ≤ es) : s ≤ skipWhile m es p s ∧ skipWhile m es p s ≤ es ∧
    text m s (skipWhile m es p s) = (text m s es).takeWhile p ∧
    text m (skipWhile m es p s) es = (text m s es).dropWhile p := by
  unfold skipWhile
  induction hn : es - s generalizing s with
  | zero =>
    obtain rfl : s = es := by omega
    rw [scan, text_self]
    exact ⟨le_refl _, le_refl _, rfl, rfl⟩
  | succ n ih =>
    rw [scan, text_cons (by omega : s < es)]
    cases hp : p (m s) with
    | true =>
      obtain ⟨hle, hes, htake, hdrop⟩ := ih (by omega : s + 1 ≤ es) (by omega)
      rw [takeWhile_cons_of_pos hp, dropWhile_cons_of_pos hp, if_pos rfl]
      refine ⟨by omega, hes, ?_, hdrop⟩
      rw [text_cons (by omega), htake]
    | false =>
      have hneg : ¬p (m s) = true := by rw [hp]; nofun
      rw [takeWhile_cons_of_neg hneg, dropWhile_cons_of_neg hneg, if_neg nofun, text_self,
        text_cons (by omega : s < es)]
      exact ⟨le_refl _, by omega, rfl, rfl⟩

/-- The tokens from `s` on. -/
def At (m : Memory) (es s : Nat) (ts : List Token) : Prop := s ≤ es ∧ Lexes (text m s es) ts

theorem lexes_dropWhile {l : List Byte} {ts : List Token} : Lexes (l.dropWhile isBlank) ts ↔ Lexes l ts := by
  induction l with
  | nil => exact Iff.rfl
  | cons c l ih =>
    cases hc : isBlank c with
    | true => rw [dropWhile_cons_of_pos hc, ih, lexes_blank hc]
    | false => rw [dropWhile_cons_of_neg (by rw [hc]; nofun)]

variable {ts : List Token}

theorem At.skip (h : At m es s ts) : At m es (skipWhile m es isBlank s) ts ∧ s ≤ skipWhile m es isBlank s ∧
    (skipWhile m es isBlank s < es → isBlank (m (skipWhile m es isBlank s)) = false) := by
  obtain ⟨hle, hes, -, hdrop⟩ := skipWhile_spec (m := m) (p := isBlank) h.1
  refine ⟨⟨hes, ?_⟩, hle, fun hlt => ?_⟩
  · rw [hdrop, lexes_dropWhile]
    exact h.2
  · have hstop := List.head?_dropWhile_not isBlank (text m s es)
    rw [← hdrop, text_cons hlt] at hstop
    exact hstop

theorem lexes_sym {c : Byte} {cs : List Byte} (hb : isBlank c = false) (h : Lexes (c :: cs) ts) :
    ∃ t us, ts = t :: us ∧ (t.sym = some c ∨ t.sym = none ∧ isWord c = true) := by
  generalize hl : c :: cs = l at h
  cases h with
  | nil => cases hl
  | blank hc =>
    cases hl
    rw [hb] at hc
    cases hc
  | symbol ht =>
    cases hl
    exact ⟨_, _, rfl, .inl ht⟩
  | gtgt =>
    cases hl
    exact ⟨_, _, rfl, .inl rfl⟩
  | gt =>
    cases hl
    exact ⟨_, _, rfl, .inl rfl⟩
  | word hne hw => exact ⟨_, _, rfl, .inr ⟨rfl, isWord_of_cons_eq hne hw hl⟩⟩

theorem peek_spec (hm : IsString m es) (h : At m es s ts) {toks : List Byte} (htoks : ∀ c ∈ toks, c ∈ symbols) :
    At m es (peek m es s toks).1 ts ∧ s ≤ (peek m es s toks).1 ∧
      (peek m es s toks).2 = ts.head?.any fun t => t.sym.any toks.contains := by
  obtain ⟨hat, hle, hblank⟩ := h.skip
  unfold peek
  generalize skipWhile m es isBlank s = s' at hat hle hblank
  refine ⟨hat, hle, ?_⟩
  dsimp only
  obtain ⟨hes, hlex⟩ := hat
  rcases Nat.lt_or_eq_of_le hes with hlt | rfl
  · rw [text_cons hlt] at hlex
    rw [decide_eq_true (hm.nonzero s' hlt), Bool.true_and]
    obtain ⟨t, us, rfl, ht | ⟨ht, hw⟩⟩ := lexes_sym (hblank hlt) hlex
    · rw [List.head?_cons, Option.any_some, ht, Option.any_some]
    · rw [List.head?_cons, Option.any_some, ht, Option.any_none, Bool.eq_false_iff, ne_eq, contains_iff_mem]
      intro hmem
      rw [isWord, List.contains_iff_mem.mpr (htoks _ hmem), Bool.not_true, Bool.and_false] at hw
      cases hw
  · rw [text_self, lexes_nil] at hlex
    subst hlex
    rw [decide_eq_false (not_not.mpr hm.nul)]
    rfl

theorem peek_one (hm : IsString m es) (h : At m es s ts) {t : Token} {c : Byte} (ht : t.sym = some c)
    (hc : c ≠ ch '>') :
    At m es (peek m es s [c]).1 ts ∧ ((peek m es s [c]).2 = true ↔ ∃ us, ts = t :: us) := by
  have hmem : ∀ d ∈ [c], d ∈ symbols := by
    intro d hd
    rw [mem_singleton] at hd
    subst hd
    cases t <;> cases ht <;> decide
  obtain ⟨hat, -, hpeek⟩ := peek_spec hm h hmem
  refine ⟨hat, ?_⟩
  rw [hpeek]
  cases ts with
  | nil => exact ⟨nofun, nofun⟩
  | cons u us =>
    rw [List.head?_cons, Option.any_some, Option.any_eq_true]
    constructor
    · rintro ⟨d, hu, hd⟩
      rw [contains_iff_mem, mem_singleton] at hd
      subst hd
      exact ⟨us, by rw [sym_inj hu ht hc]⟩
    · rintro ⟨us', heq⟩
      cases heq
      exact ⟨c, ht, List.contains_iff_mem.mpr (mem_singleton_self c)⟩

/-- The bytes from `x.1` to `x.2` are a whole word. -/
structure WordAt (m : Memory) (es : Nat) (x : Nat × Nat) (w : List Byte) : Prop where
  le : x.1 ≤ x.2
  end_le : x.2 ≤ es
  text_eq : text m x.1 x.2 = w
  chars : ∀ i, x.1 ≤ i → i < x.2 → isWord (m i) = true
  stop : x.2 < es → isWord (m x.2) = false

theorem mem_text {i : Nat} (hs : s ≤ i) (he : i < e) : m i ∈ text m s e := by
  refine mem_map_of_mem ?_
  rw [mem_range'_1]
  omega

theorem wordAt_skipWhile (h : s ≤ es) :
    WordAt m es (s, skipWhile m es isWord s) ((text m s es).takeWhile isWord) := by
  obtain ⟨hle, hes, htake, hdrop⟩ := skipWhile_spec (m := m) (p := isWord) h
  refine ⟨hle, hes, htake, fun i hi hlt => ?_, fun hlt => ?_⟩
  · have hmem : m i ∈ text m s (skipWhile m es isWord s) := mem_text hi hlt
    rw [htake] at hmem
    exact mem_takeWhile_imp hmem
  · have hstop := List.head?_dropWhile_not isWord (text m s es)
    rw [← hdrop, text_cons hlt] at hstop
    exact hstop

theorem single_of_sym {t : Token} {c : Byte} (h : t.sym = some c) (hc : c ≠ ch '>') :
    c = ch '|' ∨ c = ch '(' ∨ c = ch ')' ∨ c = ch ';' ∨ c = ch '&' ∨ c = ch '<' := by
  cases t <;> cases h <;> first | exact absurd rfl hc | decide

theorem not_single_of_isWord {c : Byte} (h : isWord c = true) :
    ¬(c = ch '|' ∨ c = ch '(' ∨ c = ch ')' ∨ c = ch ';' ∨ c = ch '&' ∨ c = ch '<') ∧ c ≠ ch '>' := by
  refine ⟨?_, ?_⟩
  · rintro (rfl | rfl | rfl | rfl | rfl | rfl) <;> cases h
  · rintro rfl
    cases h

/-- What the `switch` passes is the first token. -/
theorem passToken_spec (hm : IsString m es) (hs : s < es) (hb : isBlank (m s) = false) (h : Lexes (text m s es) ts) :
    ∃ t us, ts = t :: us ∧ (passToken m es s).1 = t.code ∧ s < (passToken m es s).2 ∧
      At m es (passToken m es s).2 us ∧ ∀ w, t = .word w → WordAt m es (s, (passToken m es s).2) w := by
  have hzero := hm.nonzero s hs
  have htext := text_cons (m := m) hs
  by_cases hw : isWord (m s) = true
  · obtain ⟨hsingle, hgt⟩ := not_single_of_isWord hw
    have hpass : passToken m es s = (ch 'a', skipWhile m es isWord s) := by
      unfold passToken
      dsimp only
      rw [if_neg hzero, if_neg hsingle, if_neg hgt]
    obtain ⟨hle, hes, htake, hdrop⟩ := skipWhile_spec (m := m) (p := isWord) (le_of_lt hs)
    rw [htext, lexes_word hw, ← htext] at h
    obtain ⟨us, rfl, h⟩ := h
    have hne : s ≠ skipWhile m es isWord s := by
      intro heq
      rw [← heq, text_self, htext, takeWhile_cons_of_pos hw] at htake
      cases htake
    rw [hpass]
    refine ⟨_, us, rfl, rfl, lt_of_le_of_ne hle hne, ⟨hes, by rw [hdrop]; exact h⟩, ?_⟩
    rintro w ⟨⟩
    exact wordAt_skipWhile (le_of_lt hs)
  · obtain ⟨t, hgtgt, ht, hcode⟩ := exists_sym hb (Bool.eq_false_iff.mpr hw)
    rw [htext] at h
    by_cases hgt : m s = ch '>'
    · have hsingle : ¬(m s = ch '|' ∨ m s = ch '(' ∨ m s = ch ')' ∨ m s = ch ';' ∨ m s = ch '&' ∨ m s = ch '<') := by
        rw [hgt]
        decide
      by_cases hnext : m (s + 1) = ch '>'
      · have hlt : s + 1 < es := by
          refine lt_of_le_of_ne hs fun heq => ?_
          rw [heq, hm.nul] at hnext
          cases hnext
        have hpass : passToken m es s = (ch '+', s + 1 + 1) := by
          unfold passToken
          dsimp only
          rw [if_neg hzero, if_neg hsingle, if_pos hgt, if_pos hnext]
        rw [text_cons hlt, hgt, hnext, lexes_gtgt] at h
        obtain ⟨us, rfl, h⟩ := h
        rw [hpass]
        exact ⟨_, us, rfl, rfl, by dsimp only; omega, ⟨hlt, h⟩, nofun⟩
      · have hhead : (text m (s + 1) es).head? ≠ some (ch '>') := by
          rcases Nat.lt_or_eq_of_le hs with hlt | heq
          · rw [text_cons hlt, List.head?_cons]
            exact fun heq => hnext (Option.some.inj heq)
          · rw [← Nat.succ_eq_add_one, heq, text_self]
            nofun
        have hpass : passToken m es s = (ch '>', s + 1) := by
          unfold passToken
          dsimp only
          rw [if_neg hzero, if_neg hsingle, if_pos hgt, if_neg hnext, hgt]
        rw [hgt, lexes_gt hhead] at h
        obtain ⟨us, rfl, h⟩ := h
        rw [hpass]
        exact ⟨_, us, rfl, rfl, Nat.lt_succ_self s, ⟨hs, h⟩, nofun⟩
    · rw [lexes_symbol ht hgt] at h
      obtain ⟨us, rfl, h⟩ := h
      have hpass : passToken m es s = (m s, s + 1) := by
        unfold passToken
        dsimp only
        rw [if_neg hzero, if_pos (single_of_sym ht hgt)]
      rw [hpass]
      refine ⟨t, us, rfl, hcode.symm, Nat.lt_succ_self s, ⟨hs, h⟩, ?_⟩
      rintro w rfl
      cases ht

theorem gettoken_nil (hm : IsString m es) (h : At m es s []) :
    (gettoken m es s).ret = 0 ∧ At m es (gettoken m es s).ps [] := by
  obtain ⟨hat, -, hblank⟩ := h.skip
  rcases Nat.lt_or_eq_of_le hat.1 with hlt | heq
  · obtain ⟨t, us, hts, -⟩ := passToken_spec hm hlt (hblank hlt) hat.2
    cases hts
  · have hpass : passToken m es (skipWhile m es isBlank s) = (0, skipWhile m es isBlank s) := by
      unfold passToken
      dsimp only
      rw [heq, hm.nul, if_pos rfl]
    unfold gettoken
    dsimp only
    rw [hpass]
    exact ⟨rfl, hat.skip.1⟩

theorem gettoken_cons {t : Token} (hm : IsString m es) (h : At m es s (t :: ts)) :
    (gettoken m es s).ret = t.code ∧ s < (gettoken m es s).ps ∧ At m es (gettoken m es s).ps ts ∧
      ∀ w, t = .word w → WordAt m es ((gettoken m es s).q, (gettoken m es s).eq) w := by
  obtain ⟨⟨hes, hlex⟩, hle, hblank⟩ := h.skip
  rcases Nat.lt_or_eq_of_le hes with hlt | heq
  · obtain ⟨t', us, hts, hcode, hpos, hat, hword⟩ := passToken_spec hm hlt (hblank hlt) hlex
    cases hts
    obtain ⟨hat, hps, -⟩ := hat.skip
    exact ⟨hcode, lt_of_le_of_lt hle (lt_of_lt_of_le hpos hps), hat, hword⟩
  · rw [heq, text_self, lexes_nil] at hlex
    cases hlex

end

end Xv6.Sh
