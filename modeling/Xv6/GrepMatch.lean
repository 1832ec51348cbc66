import Mathlib
import Xv6.Bits

/- The regular expressions of grep (`match`, `matchhere`, `matchstar` in grep.c).

   A C string is the list of the bytes in front of its NUL: `re[0] == '\0'` is the end of the list.

   1. What an expression means: `^` in front, items, and `$` behind (`anchored`, `parse`). An item is a letter
      or the repetition of one, and has a language; the items of an expression concatenate.
   2. `matchhere` decides whether a text starts with a word of the expression (`matchhere_iff`), `match` whether
      it has one anywhere (`matchRe_iff`).

   The two functions call each other; a call makes the expression or the text shorter, or goes from `matchstar`
   to `matchhere`.

   Correspondence (C ↔ Lean):
     `match`, `matchhere`, `matchstar`  ↔ `matchRe`, `matchhere`, `matchstar`
     `while(*text++ != '\0')` of `match` ↔ `matchAny` -/
namespace Xv6.Grep
open List Bits Computability

def ch (c : Char) : Byte := BitVec.ofNat 8 c.toNat

mutual

def matchhere (re text : List Byte) : Bool :=
  match re with
  | [] => true
  | c :: re =>
    if re.head? = some (ch '*') then matchstar c re.tail text
    else if c = ch '$' ∧ re = [] then text.isEmpty
    else
      match text with
      | [] => false
      | t :: text => if c = ch '.' ∨ c = t then matchhere re text else false
termination_by (re.length + text.length, 0)

def matchstar (c : Byte) (re text : List Byte) : Bool :=
  matchhere re text ||
    match text with
    | [] => false
    | t :: text => if t = c ∨ c = ch '.' then matchstar c re text else false
termination_by (re.length + text.length, 1)

end

def matchAny (re : List Byte) : List Byte → Bool
  | [] => matchhere re []
  | t :: text => matchhere re (t :: text) || matchAny re text

def matchRe (re text : List Byte) : Bool :=
  if re.head? = some (ch '^') then matchhere re.tail text else matchAny re text

/-! ## What an expression means -/

inductive Item where
  | one (c : Byte)
  | many (c : Byte)
  deriving DecidableEq

/-- The words of one letter that a character of an expression stands for. -/
def letters (c : Byte) : Language Byte := {w | ∃ t, (c = ch '.' ∨ c = t) ∧ w = [t]}

def Item.lang : Item → Language Byte
  | .one c => letters c
  | .many c => (letters c)∗

/-- The items of an expression, and whether `$` stands behind them. -/
def parse : List Byte → List Item × Bool
  | [] => ([], false)
  | c :: re =>
    if re.head? = some (ch '*') then
      let rest := parse re.tail
      (.many c :: rest.1, rest.2)
    else if c = ch '$' ∧ re = [] then ([], true)
    else
      let rest := parse re
      (.one c :: rest.1, rest.2)
termination_by re => re.length

def anchored (re : List Byte) : Bool := re.head? = some (ch '^')

/-- The expression without the `^`. -/
def body (re : List Byte) : List Byte := if anchored re then re.tail else re

/-- The words of an expression: its items, one after the other. -/
def lang (re : List Byte) : Language Byte := ((parse re).1.map Item.lang).prod

/-! ## Texts that start with a word -/

/-- What may follow a word: nothing, if `$` asks for the end of the text. -/
def behind (atEnd : Bool) : Language Byte := if atEnd then 1 else ⊤

/-- The texts that start with a word of the expression. -/
def starts (re : List Byte) : Language Byte := lang re * behind (parse re).2

variable {c t : Byte} {re text : List Byte} {L : Language Byte}

theorem mem_letters_mul :
    text ∈ letters c * L ↔ ∃ t rest, text = t :: rest ∧ (c = ch '.' ∨ c = t) ∧ rest ∈ L := by
  rw [Language.mem_mul]
  constructor
  · intro h
    obtain ⟨_, ⟨t, hc, rfl⟩, rest, hrest, rfl⟩ := h
    exact ⟨t, rest, rfl, hc, hrest⟩
  · intro h
    obtain ⟨t, rest, rfl, hc, hrest⟩ := h
    exact ⟨[t], ⟨t, hc, rfl⟩, rest, hrest, rfl⟩

theorem mem_kstar_mul :
    text ∈ (letters c)∗ * L ↔
      text ∈ L ∨ ∃ t rest, text = t :: rest ∧ (c = ch '.' ∨ c = t) ∧ rest ∈ (letters c)∗ * L := by
  have hunfold : (letters c)∗ * L = L + letters c * ((letters c)∗ * L) := by
    calc (letters c)∗ * L = (1 + letters c * (letters c)∗) * L := by rw [Language.one_add_self_mul_kstar_eq_kstar]
      _ = L + letters c * ((letters c)∗ * L) := by rw [add_mul, one_mul, mul_assoc]
  rw [← mem_letters_mul, ← Language.mem_add, ← hunfold]

theorem starts_nil : starts [] = ⊤ := by
  simp [starts, lang, parse, behind]

theorem starts_many (h : re.head? = some (ch '*')) : starts (c :: re) = (letters c)∗ * starts re.tail := by
  have hparse : parse (c :: re) = (.many c :: (parse re.tail).1, (parse re.tail).2) := by
    rw [parse, if_pos h]
  simp only [starts, lang, hparse, map_cons, prod_cons, Item.lang, mul_assoc]

theorem starts_end : starts [ch '$'] = 1 := by
  simp [starts, lang, parse, behind]

theorem starts_one (h : re.head? ≠ some (ch '*')) (hend : ¬(c = ch '$' ∧ re = [])) :
    starts (c :: re) = letters c * starts re := by
  have hparse : parse (c :: re) = (.one c :: (parse re).1, (parse re).2) := by
    rw [parse, if_neg h, if_neg hend]
  simp only [starts, lang, hparse, map_cons, prod_cons, Item.lang, mul_assoc]

theorem matchhere_nil : matchhere [] text = true := by
  rw [matchhere.eq_def]

theorem matchhere_cons :
    matchhere (c :: re) text =
      if re.head? = some (ch '*') then matchstar c re.tail text
      else if c = ch '$' ∧ re = [] then text.isEmpty
      else
        match text with
        | [] => false
        | t :: text => if c = ch '.' ∨ c = t then matchhere re text else false := by
  rw [matchhere.eq_def]

theorem matchstar_iff (h : ∀ text, matchhere re text = true ↔ text ∈ L) :
    matchstar c re text = true ↔ text ∈ (letters c)∗ * L := by
  induction text with
  | nil =>
    rw [matchstar, mem_kstar_mul]
    simp [h]
  | cons t text ih =>
    have hsame : t = c ∨ c = ch '.' ↔ c = ch '.' ∨ c = t := by
      rw [or_comm, eq_comm (a := t)]
    rw [matchstar, mem_kstar_mul]
    simp [h, hsame, ih]

theorem matchhere_iff : matchhere re text = true ↔ text ∈ starts re := by
  induction re using parse.induct generalizing text with
  | case1 =>
    rw [starts_nil]
    exact iff_of_true matchhere_nil trivial
  | case2 c re hstar ih =>
    rw [matchhere_cons, if_pos hstar, starts_many hstar]
    exact matchstar_iff fun _ => ih
  | case3 c re hstar hend =>
    rw [matchhere_cons, if_neg hstar, if_pos hend]
    obtain ⟨rfl, rfl⟩ := hend
    rw [starts_end, Language.mem_one, List.isEmpty_iff]
  | case4 c re hstar hend ih =>
    rw [matchhere_cons, if_neg hstar, if_neg hend, starts_one hstar hend, mem_letters_mul]
    cases text with
    | nil => simp
    | cons t text => simp [ih]

theorem matchAny_iff : matchAny re text = true ↔ ∃ pre rest, text = pre ++ rest ∧ rest ∈ starts re := by
  induction text with
  | nil =>
    rw [matchAny, matchhere_iff]
    constructor
    · exact fun h => ⟨[], [], rfl, h⟩
    · intro h
      obtain ⟨pre, rest, heq, hrest⟩ := h
      rwa [(List.append_eq_nil_iff.mp heq.symm).2] at hrest
  | cons t text ih =>
    rw [matchAny, Bool.or_eq_true, matchhere_iff, ih]
    constructor
    · rintro (h | ⟨pre, rest, rfl, hrest⟩)
      · exact ⟨[], t :: text, rfl, h⟩
      · exact ⟨t :: pre, rest, rfl, hrest⟩
    · intro h
      obtain ⟨pre, rest, heq, hrest⟩ := h
      cases pre with
      | nil => exact .inl (by rwa [heq])
      | cons u pre =>
        cases heq
        exact .inr ⟨pre, rest, rfl, hrest⟩

theorem mem_starts :
    text ∈ starts re ↔ ∃ word suf, text = word ++ suf ∧ word ∈ lang re ∧ ((parse re).2 = true → suf = []) := by
  have hbehind (suf : List Byte) : suf ∈ behind (parse re).2 ↔ ((parse re).2 = true → suf = []) := by
    unfold behind
    cases (parse re).2 with
    | true => simp
    | false => exact iff_of_true trivial (by simp)
  simp only [starts, Language.mem_mul, hbehind]
  constructor
  · intro h
    obtain ⟨word, hword, suf, hsuf, rfl⟩ := h
    exact ⟨word, suf, rfl, hword, hsuf⟩
  · intro h
    obtain ⟨word, suf, rfl, hword, hsuf⟩ := h
    exact ⟨word, hword, suf, hsuf, rfl⟩

/-- `match` finds out whether some part of the text is a word of the expression: one at the start, if the expression
    begins with `^`, and one at the end, if it ends in a `$`. -/
theorem matchRe_iff (re text : List Byte) :
    matchRe re text = true ↔ ∃ pre word suf, text = pre ++ word ++ suf ∧ word ∈ lang (body re) ∧
      (anchored re = true → pre = []) ∧ ((parse (body re)).2 = true → suf = []) := by
  by_cases ha : re.head? = some (ch '^')
  · have hanchored : anchored re = true := decide_eq_true ha
    rw [matchRe, if_pos ha, matchhere_iff, mem_starts, body, if_pos hanchored]
    constructor
    · intro h
      obtain ⟨word, suf, rfl, hword, hsuf⟩ := h
      exact ⟨[], word, suf, rfl, hword, fun _ => rfl, hsuf⟩
    · intro h
      obtain ⟨pre, word, suf, rfl, hword, hpre, hsuf⟩ := h
      exact ⟨word, suf, by rw [hpre hanchored, nil_append], hword, hsuf⟩
  · have hfree : ¬anchored re = true := fun h => ha (of_decide_eq_true h)
    rw [matchRe, if_neg ha, matchAny_iff, body, if_neg hfree]
    constructor
    · intro h
      obtain ⟨pre, rest, rfl, hrest⟩ := h
      obtain ⟨word, suf, rfl, hword, hsuf⟩ := mem_starts.mp hrest
      exact ⟨pre, word, suf, (append_assoc _ _ _).symm, hword, fun h => absurd h hfree, hsuf⟩
    · intro h
      obtain ⟨pre, word, suf, rfl, hword, -, hsuf⟩ := h
      exact ⟨pre, word ++ suf, append_assoc _ _ _, mem_starts.mpr ⟨word, suf, rfl, hword, hsuf⟩⟩

end Xv6.Grep
