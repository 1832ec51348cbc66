import Xv6.GrepMatch

/- The loop of grep (`grep` in grep.c).

   grep reads into a buffer of 1024 bytes, writes the lines that match, and moves what is left behind the last newline
   to the front of the buffer, where the next read goes on.

   1. `scan` goes over the lines of the buffer: what it writes and what it leaves (`scan_text`).
   2. If no newline came, the buffer is emptied and the beginning of a line is lost: `arrived` are the lines less what
      is lost of them, and grep writes those that match (`grep_arrived`). If each read brings a newline, nothing is
      lost (`grep_eq`).

   Correspondence (C ↔ Lean):
     `buf[0 .. m)` at the start of a round   ↔ `kept`
     what `read` put behind it                ↔ `piece`
     `p .. buf + m`                           ↔ the argument of `scan`
     `while((q = strchr(p, '\n')) != 0)`      ↔ `scan`
     the body of the outer loop               ↔ `round`: what it writes and what it keeps
     the outer loop                           ↔ `grep` -/
namespace Xv6.Grep
open List Bits

def newline : Byte := ch '\n'

def strchr : List Byte → Byte → Option Nat
  | [], _ => none
  | b :: s, c => if b = 0 then none else if b = c then some 0 else (strchr s c).map (· + 1)

theorem strchr_lt {s : List Byte} {c : Byte} {k : Nat} (h : strchr s c = some k) : k < s.length := by
  induction s generalizing k with
  | nil => cases h
  | cons b s ih =>
    unfold strchr at h
    split at h
    · cases h
    · split at h
      · cases h
        exact Nat.succ_pos _
      · obtain ⟨j, hj, rfl⟩ := Option.map_eq_some_iff.mp h
        exact Nat.succ_lt_succ (ih hj)

/-- The lines from `p` on: what is written, and where `p` stands in the end. -/
def scan (pattern p : List Byte) : List Byte × List Byte :=
  match _hk : strchr p newline with
  | none => ([], p)
  | some k =>
    let rest := scan pattern (p.drop (k + 1))
    ((if matchRe pattern (p.take k) then p.take (k + 1) else []) ++ rest.1, rest.2)
termination_by p.length
decreasing_by
  have := strchr_lt _hk
  rw [length_drop]
  omega

def round (pattern kept piece : List Byte) : List Byte × List Byte :=
  let buf := kept ++ piece
  let r := scan pattern buf
  -- `if(p == buf) m = 0`
  (r.1, if r.2.length = buf.length then [] else r.2)

theorem scan_le (pattern p : List Byte) : (scan pattern p).2.length ≤ p.length := by
  fun_induction scan pattern p with
  | case1 p hnone => exact Nat.le_refl _
  | case2 p k hk rest ih =>
    rw [length_drop] at ih
    exact ih.trans (Nat.sub_le _ _)

theorem round_le {pattern kept piece : List Byte} :
    (round pattern kept piece).2.length ≤ kept.length + piece.length := by
  have hscan := scan_le pattern (kept ++ piece)
  rw [length_append] at hscan
  unfold round
  dsimp only
  split
  · exact Nat.zero_le _
  · exact hscan

def grep (pattern : List Byte) : List Byte → List (List Byte) → List Byte
  | _, [] => []
  | kept, piece :: pieces =>
    let r := round pattern kept piece
    r.1 ++ grep pattern r.2 pieces

/-- Each read brings something, and not more than it asks for: `sizeof(buf)-m-1` bytes. -/
def Fits (pattern : List Byte) : List Byte → List (List Byte) → Prop
  | _, [] => True
  | kept, piece :: pieces =>
    piece ≠ [] ∧ kept.length + piece.length < 1024 ∧ Fits pattern (round pattern kept piece).2 pieces

/-- What the reads of one run bring. -/
structure Reads (pattern stream : List Byte) where
  pieces : List (List Byte)
  whole : pieces.flatten = stream
  fits : Fits pattern [] pieces

def Reads.output {pattern stream : List Byte} (r : Reads pattern stream) : List Byte := grep pattern [] r.pieces

/-! ## Lines -/

variable {pattern kept piece rest tail l : List Byte} {ls : List (List Byte)} {pieces : List (List Byte)}

structure Line (l : List Byte) : Prop where
  newline : newline ∉ l
  nul : 0 ∉ l

def text (ls : List (List Byte)) : List Byte := (ls.map (· ++ [newline])).flatten

theorem text_cons : text (l :: ls) = l ++ newline :: text ls := by
  simp [text]

theorem strchr_line (h : Line l) : strchr (l ++ newline :: tail) newline = some l.length := by
  obtain ⟨hnl, hnul⟩ := h
  induction l with
  | nil => simp [strchr, newline, ch]
  | cons b l ih =>
    simp only [mem_cons, not_or] at hnl hnul
    rw [cons_append, strchr, if_neg (Ne.symm hnul.1), if_neg (Ne.symm hnl.1), ih hnl.2 hnul.2]
    rfl

theorem strchr_none (h : newline ∉ tail) : strchr tail newline = none := by
  cases hs : strchr tail newline with
  | none => rfl
  | some k =>
    exfalso
    induction tail generalizing k with
    | nil => cases hs
    | cons b s ih =>
      simp only [mem_cons, not_or] at h
      unfold strchr at hs
      split at hs
      · cases hs
      · rw [if_neg (Ne.symm h.1)] at hs
        obtain ⟨j, hj, -⟩ := Option.map_eq_some_iff.mp hs
        exact ih h.2 j hj

theorem scan_line (h : Line l) :
    scan pattern (l ++ newline :: tail) =
      ((if matchRe pattern l then l ++ [newline] else []) ++ (scan pattern tail).1, (scan pattern tail).2) := by
  have htake : (l ++ newline :: tail).take (l.length + 1) = l ++ [newline] := by simp [take_append]
  have hdrop : (l ++ newline :: tail).drop (l.length + 1) = tail := by simp [drop_append]
  rw [scan.eq_def]
  split
  · rename_i hnone
    rw [strchr_line h] at hnone
    cases hnone
  · rename_i k hk
    rw [strchr_line h] at hk
    cases hk
    rw [htake, hdrop, take_left]

theorem scan_text (h : ∀ l ∈ ls, Line l) (htail : newline ∉ tail) :
    scan pattern (text ls ++ tail) = (text (ls.filter (matchRe pattern)), tail) := by
  induction ls with
  | nil =>
    rw [scan.eq_def]
    split
    · rfl
    · rename_i hk
      rw [strchr_none (by simpa [text] using htail)] at hk
      cases hk
  | cons l ls ih =>
    rw [text_cons, append_assoc, cons_append, scan_line (h l (by simp)), ih fun l hl => h l (by simp [hl])]
    by_cases hm : matchRe pattern l = true
    · simp [hm, text_cons]
    · simp [hm]

theorem text_split (h : ∀ l ∈ ls, Line l) (heq : piece ++ rest = text ls) :
    ∃ ls₁ ls₂ tail, ls = ls₁ ++ ls₂ ∧ piece = text ls₁ ++ tail ∧ newline ∉ tail ∧ tail ++ rest = text ls₂ := by
  induction ls generalizing piece with
  | nil =>
    obtain ⟨rfl, rfl⟩ := List.append_eq_nil_iff.mp heq
    exact ⟨[], [], [], rfl, rfl, not_mem_nil, rfl⟩
  | cons l ls ih =>
    rw [text_cons] at heq
    obtain ⟨a, hl, hrest⟩ | ⟨a, hpiece, hrest⟩ := List.append_eq_append_iff.mp heq
    · -- the piece ends inside the first line
      refine ⟨[], l :: ls, piece, rfl, rfl, ?_, by rw [text_cons, heq]⟩
      intro hmem
      exact (h l (by simp)).newline (hl ▸ mem_append_left _ hmem)
    · cases a with
      | nil =>
        refine ⟨[], l :: ls, piece, rfl, rfl, ?_, by rw [text_cons, heq]⟩
        rw [hpiece, append_nil]
        exact (h l (by simp)).newline
      | cons b a =>
        obtain ⟨hb, ha⟩ := List.cons.inj hrest
        obtain ⟨ls₁, ls₂, tail, hls, rfl, htail, htext⟩ := ih (fun l hl => h l (by simp [hl])) ha.symm
        refine ⟨l :: ls₁, ls₂, tail, by rw [hls, cons_append], ?_, htail, htext⟩
        rw [hpiece, text_cons, ← hb, append_assoc, cons_append]

/-- The lines of a buffer, and what stands behind the last newline. -/
def lines : List Byte → List (List Byte) × List Byte
  | [] => ([], [])
  | b :: s =>
    if b = newline then ([] :: (lines s).1, (lines s).2)
    else match (lines s).1 with
      | [] => ([], b :: (lines s).2)
      | l :: ls => ((b :: l) :: ls, (lines s).2)

theorem lines_append (hl : newline ∉ l) : lines (l ++ newline :: tail) = (l :: (lines tail).1, (lines tail).2) := by
  induction l with
  | nil => simp [lines]
  | cons b l ih =>
    simp only [mem_cons, not_or] at hl
    rw [cons_append, lines, ih hl.2, if_neg (Ne.symm hl.1)]

theorem lines_tail (htail : newline ∉ tail) : lines tail = ([], tail) := by
  induction tail with
  | nil => rfl
  | cons b s ih =>
    simp only [mem_cons, not_or] at htail
    rw [lines, ih htail.2, if_neg (Ne.symm htail.1)]

theorem lines_text (h : ∀ l ∈ ls, newline ∉ l) (htail : newline ∉ tail) : lines (text ls ++ tail) = (ls, tail) := by
  induction ls with
  | nil => exact lines_tail htail
  | cons l ls ih =>
    rw [text_cons, append_assoc, cons_append, lines_append (h l (by simp)), ih fun l hl => h l (by simp [hl])]

theorem exists_lines (s : List Byte) : ∃ ls tail, s = text ls ++ tail ∧ (∀ l ∈ ls, newline ∉ l) ∧ newline ∉ tail := by
  induction s with
  | nil => exact ⟨[], [], rfl, fun _ hl => absurd hl not_mem_nil, not_mem_nil⟩
  | cons b s ih =>
    obtain ⟨ls, tail, rfl, hls, htail⟩ := ih
    by_cases hb : b = newline
    · refine ⟨[] :: ls, tail, by rw [text_cons, hb]; rfl, ?_, htail⟩
      intro l hl
      obtain rfl | hl := List.mem_cons.mp hl
      · exact not_mem_nil
      · exact hls l hl
    · cases ls with
      | nil => exact ⟨[], b :: tail, rfl, hls, by simp [htail, Ne.symm hb]⟩
      | cons l ls =>
        refine ⟨(b :: l) :: ls, tail, by rw [text_cons, text_cons]; rfl, ?_, htail⟩
        intro l' hl'
        obtain rfl | hl' := List.mem_cons.mp hl'
        · simp [hls l (by simp), Ne.symm hb]
        · exact hls l' (by simp [hl'])

theorem text_append (ls ls' : List (List Byte)) : text (ls ++ ls') = text ls ++ text ls' := by
  simp [text]

theorem mem_text {b : Byte} (hl : l ∈ ls) (hb : b ∈ l) : b ∈ text ls := by
  simp only [text, mem_flatten, mem_map]
  exact ⟨_, ⟨l, hl, rfl⟩, mem_append_left _ hb⟩

/-! ## Rounds -/

theorem text_ne_nil (h : ls ≠ []) : 0 < (text ls).length := by
  cases ls with
  | nil => exact absurd rfl h
  | cons l ls =>
    rw [text_cons, length_append, length_cons]
    omega

/-- A round whose read brings a newline writes the lines that match and keeps the beginning of the next. -/
theorem round_eq (pattern : List Byte) (hnl : newline ∈ piece) (hnul : 0 ∉ kept ++ piece) :
    ∃ ls tail, kept ++ piece = text ls ++ tail ∧
    (∀ l ∈ ls, newline ∉ l) ∧ newline ∉ tail ∧ round pattern kept piece = (text (ls.filter (matchRe pattern)),
      tail) := by
  obtain ⟨ls, tail, hbuf, hls, htail⟩ := exists_lines (kept ++ piece)
  have hsome : ls ≠ [] := by
    rintro rfl
    have hmem : newline ∈ kept ++ piece := mem_append_right _ hnl
    rw [hbuf] at hmem
    exact htail (by simpa [text] using hmem)
  have hlen := text_ne_nil hsome
  have hline : ∀ l ∈ ls, Line l :=
    fun l hl => ⟨hls l hl, fun hmem => hnul (hbuf ▸ mem_append_left _ (mem_text hl hmem))⟩
  refine ⟨ls, tail, hbuf, hls, htail, ?_⟩
  simp only [round, hbuf, scan_text hline htail, length_append]
  rw [if_neg (by omega)]

theorem round_lost (hkept : newline ∉ kept) (hpiece : newline ∉ piece) : round pattern kept piece = ([], []) := by
  have hbuf : newline ∉ kept ++ piece := by simp [hkept, hpiece]
  have hscan : scan pattern (kept ++ piece) = ([], kept ++ piece) := by
    have hnone : scan pattern (text [] ++ (kept ++ piece)) = _ := scan_text (fun _ hl => absurd hl not_mem_nil) hbuf
    simpa [text] using hnone
  simp [round, hscan]

/-! ## What arrives of the lines -/

/-- The lines, less what is lost of them: a read that brings no newline, and what was kept of the line before. -/
def arrived : List Byte → List (List Byte) → List (List Byte)
  | _, [] => []
  | kept, piece :: pieces =>
    if newline ∈ piece then (lines (kept ++ piece)).1 ++ arrived (lines (kept ++ piece)).2 pieces else arrived [] pieces

theorem grep_arrived (hkept : newline ∉ kept) (hnul : 0 ∉ kept ++ pieces.flatten) :
    grep pattern kept pieces = text ((arrived kept pieces).filter (matchRe pattern)) := by
  induction pieces generalizing kept with
  | nil => rfl
  | cons piece pieces ih =>
    rw [flatten_cons, ← append_assoc] at hnul
    by_cases hnl : newline ∈ piece
    · obtain ⟨ls, tail, hbuf, hls, htail, hround⟩ :=
        round_eq pattern hnl fun hmem => hnul (mem_append_left _ hmem)
      have hrest : 0 ∉ tail ++ pieces.flatten := by
        intro hmem
        rw [hbuf, append_assoc] at hnul
        exact hnul (mem_append_right _ hmem)
      rw [grep, arrived, if_pos hnl, hround, hbuf, lines_text hls htail, ih htail hrest, filter_append, text_append]
    · have hrest : 0 ∉ [] ++ pieces.flatten := fun hmem => hnul (mem_append_right _ hmem)
      rw [grep, arrived, if_neg hnl, round_lost hkept hnl, ih not_mem_nil hrest, nil_append]

theorem arrived_newline (hkept : newline ∉ kept) : ∀ l ∈ arrived kept pieces, newline ∉ l := by
  induction pieces generalizing kept with
  | nil => exact fun _ hl => absurd hl not_mem_nil
  | cons piece pieces ih =>
    rw [arrived]
    split
    · obtain ⟨ls, tail, hbuf, hls, htail⟩ := exists_lines (kept ++ piece)
      rw [hbuf, lines_text hls htail]
      intro l hl
      obtain hl | hl := List.mem_append.mp hl
      · exact hls l hl
      · exact ih htail l hl
    · exact ih not_mem_nil

theorem arrived_length (kept : List Byte) (hpieces : ∀ piece ∈ pieces, piece ≠ []) :
    (text (arrived kept pieces)).length ≤ kept.length + pieces.flatten.length ∧
      ((∃ piece ∈ pieces, newline ∉ piece) → (text (arrived kept pieces)).length < kept.length +
        pieces.flatten.length) := by
  induction pieces generalizing kept with
  | nil =>
    refine ⟨Nat.zero_le _, ?_⟩
    rintro ⟨_, hmem, -⟩
    exact absurd hmem not_mem_nil
  | cons piece pieces ih =>
    have hpiece := length_pos_of_ne_nil (hpieces piece (by simp))
    have hrest := fun kept => ih kept fun p hp => hpieces p (by simp [hp])
    rw [arrived, flatten_cons, length_append]
    split
    · rename_i hnl
      obtain ⟨ls, tail, hbuf, hls, htail⟩ := exists_lines (kept ++ piece)
      have hlen := congrArg List.length hbuf
      obtain ⟨hle, hlt⟩ := hrest tail
      rw [hbuf, lines_text hls htail, text_append, length_append]
      rw [length_append, length_append] at hlen
      dsimp only
      refine ⟨by omega, ?_⟩
      rintro ⟨p, hp, hpnl⟩
      obtain rfl | hp := List.mem_cons.mp hp
      · exact absurd hnl hpnl
      · have := hlt ⟨p, hp, hpnl⟩
        omega
    · obtain ⟨hle, -⟩ := hrest []
      rw [length_nil] at hle
      exact ⟨by omega, fun _ => by omega⟩

theorem arrived_eq (h : ∀ l ∈ ls, Line l) (hkept : newline ∉ kept) (hnl : ∀ piece ∈ pieces, newline ∈ piece)
    (heq : kept ++ pieces.flatten = text ls) : arrived kept pieces = ls := by
  induction pieces generalizing kept ls with
  | nil =>
    cases ls with
    | nil => rfl
    | cons l ls =>
      rw [flatten_nil, append_nil, text_cons] at heq
      exact absurd (by simp [heq]) hkept
  | cons piece pieces ih =>
    rw [flatten_cons, ← append_assoc] at heq
    obtain ⟨ls₁, ls₂, tail, rfl, hbuf, htail, hrest⟩ := text_split h heq
    have hls₁ : ∀ l ∈ ls₁, newline ∉ l := fun l hl => (h l (mem_append_left _ hl)).newline
    rw [arrived, if_pos (hnl piece (by simp)), hbuf, lines_text hls₁ htail,
      ih (fun l hl => h l (mem_append_right _ hl)) htail (fun p hp => hnl p (by simp [hp])) hrest]

theorem nul_not_mem_text (h : ∀ l ∈ ls, Line l) : 0 ∉ text ls := by
  simp only [text, mem_flatten, mem_map]
  rintro ⟨_, ⟨l, hl, rfl⟩, hmem⟩
  obtain hmem | hmem := List.mem_append.mp hmem
  · exact (h l hl).nul hmem
  · exact absurd (List.mem_singleton.mp hmem) (by decide)

theorem grep_eq (h : ∀ l ∈ ls, Line l) (hnl : ∀ piece ∈ pieces, newline ∈ piece) (heq : pieces.flatten = text ls) :
    grep pattern [] pieces = text (ls.filter (matchRe pattern)) := by
  rw [grep_arrived not_mem_nil (by rw [nil_append, heq]; exact nul_not_mem_text h), arrived_eq h not_mem_nil hnl heq]

theorem Fits.ne_nil (h : Fits pattern kept pieces) : ∀ piece ∈ pieces, piece ≠ [] := by
  induction pieces generalizing kept with
  | nil => exact fun _ hp => absurd hp not_mem_nil
  | cons piece pieces ih =>
    obtain ⟨hpiece, -, hrest⟩ := h
    intro p hp
    obtain rfl | hp := List.mem_cons.mp hp
    · exact hpiece
    · exact ih hrest p hp

theorem text_inj {ls' : List (List Byte)} (h : ∀ l ∈ ls, newline ∉ l) (h' : ∀ l ∈ ls', newline ∉ l) :
    text ls = text ls' ↔ ls = ls' := by
  refine ⟨fun heq => ?_, congrArg text⟩
  have hlines : lines (text ls ++ []) = _ := lines_text h not_mem_nil
  rw [heq, lines_text h' not_mem_nil] at hlines
  exact (Prod.mk.inj hlines).1.symm

theorem Reads.output_iff (h : ∀ l ∈ ls, Line l) (r : Reads pattern (text ls)) :
    r.output = text (ls.filter (matchRe pattern)) ↔
      (arrived [] r.pieces).filter (matchRe pattern) = ls.filter (matchRe pattern) := by
  have hout : r.output = _ := grep_arrived not_mem_nil (by rw [nil_append, r.whole]; exact nul_not_mem_text h)
  rw [hout, text_inj]
  · exact fun l hl => arrived_newline not_mem_nil l (List.mem_filter.mp hl).1
  · exact fun l hl => (h l (List.mem_filter.mp hl).1).newline

theorem Reads.arrived_iff (h : ∀ l ∈ ls, Line l) (r : Reads pattern (text ls)) :
    arrived [] r.pieces = ls ↔ ∀ piece ∈ r.pieces, newline ∈ piece := by
  refine ⟨fun heq => ?_, fun hnl => arrived_eq h not_mem_nil hnl r.whole⟩
  by_contra hlost
  simp only [not_forall] at hlost
  obtain ⟨piece, hmem, hnl⟩ := hlost
  have hlt := (arrived_length [] r.fits.ne_nil).2 ⟨piece, hmem, hnl⟩
  rw [heq, r.whole, length_nil, Nat.zero_add] at hlt
  exact Nat.lt_irrefl _ hlt

/-- Two runs over a stream of lines write the same, the lines that match, in order, exactly if the same lines match as
they arrive in each run. They arrive as they are exactly if every read brings a newline. -/
theorem grep_any_reads (h : ∀ l ∈ ls, Line l) (r₁ r₂ : Reads pattern (text ls)) :
    (r₁.output = text (ls.filter (matchRe pattern)) ∧ r₂.output = r₁.output ↔
      ∀ r ∈ [r₁, r₂], (arrived [] r.pieces).filter (matchRe pattern) = ls.filter (matchRe pattern)) ∧
    ∀ r ∈ [r₁, r₂], arrived [] r.pieces = ls ↔ ∀ piece ∈ r.pieces, newline ∈ piece := by
  refine ⟨?_, fun r _ => r.arrived_iff h⟩
  simp only [forall_mem_cons, not_mem_nil, false_implies, implies_true, and_true]
  rw [← r₁.output_iff h, ← r₂.output_iff h]
  refine and_congr_right fun hout => ?_
  rw [hout]

theorem line_a : Line [ch 'a'] := ⟨by decide, by decide⟩

theorem line_b : Line [ch 'b'] := ⟨by decide, by decide⟩

def oneRead : Reads [ch 'a'] (text [[ch 'a'], [ch 'b']]) where
  pieces := [[ch 'a', newline, ch 'b', newline]]
  whole := rfl
  fits := by simp [Fits]

def twoReads : Reads [ch 'a'] (text [[ch 'a'], [ch 'b']]) where
  -- the first read ends inside the second line
  pieces := [[ch 'a', newline, ch 'b'], [newline]]
  whole := rfl
  fits := by
    have hkept : (round [ch 'a'] [] [ch 'a', newline, ch 'b']).2.length ≤ 3 := round_le
    refine ⟨by simp, by simp, by simp, ?_, trivial⟩
    rw [length_singleton]
    omega

theorem grep_any_reads_two :
    oneRead.output = text ([[ch 'a'], [ch 'b']].filter (matchRe [ch 'a'])) ∧ twoReads.output = oneRead.output := by
  have hline : ∀ l ∈ [[ch 'a'], [ch 'b']], Line l := by simp [line_a, line_b]
  obtain ⟨hiff, harrived⟩ := grep_any_reads hline oneRead twoReads
  refine hiff.mpr fun r hr => ?_
  rw [(harrived r hr).mpr]
  intro piece hpiece
  simp only [mem_cons, not_mem_nil, or_false] at hr
  obtain rfl | rfl := hr
  · revert piece
    decide
  · revert piece
    decide

/-! ## A read without a newline -/

theorem line_ab : Line [ch 'a', ch 'b'] := ⟨by decide, by decide⟩

def wholeLine : Reads [ch 'a'] (text [[ch 'a', ch 'b']]) where
  pieces := [[ch 'a', ch 'b', newline]]
  whole := rfl
  fits := by simp [Fits]

def halfLine : Reads [ch 'a'] (text [[ch 'a', ch 'b']]) where
  pieces := [[ch 'a'], [ch 'b', newline]]
  whole := rfl
  fits := by simp [Fits, round_lost, show newline ∉ [ch 'a'] by decide]

/-- The line `ab` matches `a`. It is written if one read brings it and not if two do. -/
theorem grep_loses_half_line : wholeLine.output = text [[ch 'a', ch 'b']] ∧ halfLine.output = [] := by
  have hfound : matchRe [ch 'a'] [ch 'a', ch 'b'] = true := by
    simp [matchRe, matchAny, matchhere_cons, matchhere_nil, ch]
  have hmissed : matchRe [ch 'a'] [ch 'b'] = false := by
    simp [matchRe, matchAny, matchhere_cons, ch]
  constructor
  · have hwhole : wholeLine.output = text ([[ch 'a', ch 'b']].filter (matchRe [ch 'a'])) :=
      grep_eq (by simp [line_ab]) (by decide) rfl
    rw [hwhole]
    simp [hfound]
  · have hfirst : round [ch 'a'] [] [ch 'a'] = ([], []) := round_lost not_mem_nil (by decide)
    have hsecond : grep [ch 'a'] [] [[ch 'b', newline]] = text ([[ch 'b']].filter (matchRe [ch 'a'])) :=
      grep_eq (by simp [line_b]) (by decide) rfl
    show grep [ch 'a'] [] [[ch 'a'], [ch 'b', newline]] = []
    rw [grep, hfirst, hsecond]
    simp [hmissed, text]

end Xv6.Grep
