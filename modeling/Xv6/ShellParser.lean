import Mathlib
import Xv6.Fuel
import Xv6.ShellLexer

/- The parser of the shell (`parsecmd` and what it calls in sh.c).

   Five procedures share a position in the text of a command and build its tree. The strings of the tree
   are pairs of positions in the text, until `nulterminate` stores a NUL behind each of them.
   `malloc` is taken to succeed, and the stack to suffice for the recursion. The procedures count down fuel,
   one unit for each call and each round of a loop; that they end is that they settle (`Fuel`).

   1. The grammar over tokens, with the tree that each derivation stands for (`Derives`).
   2. Each procedure ends, and returns only what is derived (`parse_sound`).
   3. What is derived is returned (`parse_complete`).
   4. `parsecmd_accepts_grammar`: with the strings as they are read from memory at the end.

   Correspondence (C ↔ Lean):
     `struct cmd` and its five kinds   ↔ `Cmd`
     `q`, `eq`                         ↔ a pair of positions
     `panic`                           ↔ `Stop.panic`
     the loops of `parseline`, `parseexec` ↔ `backLoop`, `argLoop`
     a store to `cmd->argv[argc]`, with `ret` leading to `cmd` ↔ `Cmd.pushArg` -/
namespace Xv6.Sh
open Function List Bits Fuel

def MAXARGS : Nat := 10
def O_RDONLY : Nat := 0x000
def O_WRONLY : Nat := 0x001
def O_CREATE : Nat := 0x200

/-- A command, with strings of type `ω`. -/
inductive Cmd (ω : Type) where
  | exec (argv : List ω)
  | redir (cmd : Cmd ω) (file : ω) (mode fd : Nat)
  | pipe (left right : Cmd ω)
  | list (left right : Cmd ω)
  | back (cmd : Cmd ω)
  deriving DecidableEq

abbrev Span := Nat × Nat

inductive Panic where
  /-- `missing file for redirection` -/
  | missingFile
  /-- `parseblock` -/
  | parseblock
  /-- `syntax - missing )` -/
  | missingParen
  /-- `syntax`, of a token in a command -/
  | badToken
  /-- `too many args` -/
  | tooManyArgs
  /-- `syntax`, of what is left over -/
  | leftovers
  deriving DecidableEq

inductive Stop where
  | panic (m : Panic)
  /-- The fuel is used up. -/
  | fuel
  deriving DecidableEq

variable {ω : Type}

/-- `cmd->argv[argc] = q`, where `ret` leads to `cmd` through redirections. -/
def Cmd.pushArg (x : ω) : Cmd ω → Cmd ω
  | .exec argv => .exec (argv ++ [x])
  | .redir c file mode fd => .redir (c.pushArg x) file mode fd
  | c => c

/-! ## The procedures -/

section

variable (m : Memory) (es : Nat)

/-- The `switch` of `parseredirs`. -/
def redirTo (cmd : Cmd ω) (tok : Byte) (x : ω) : Cmd ω :=
  if tok = ch '<' then .redir cmd x O_RDONLY 0
  else if tok = ch '>' then .redir cmd x (O_WRONLY ||| O_CREATE) 1
  else if tok = ch '+' then .redir cmd x (O_WRONLY ||| O_CREATE) 1
  else cmd

def parseredirs : Nat → Cmd Span → Nat → Except Stop (Cmd Span × Nat)
  | 0, _, _ => .error .fuel
  | fuel + 1, cmd, s =>
    let p := peek m es s [ch '<', ch '>']
    if p.2 then
      let tok := gettoken m es p.1
      let file := gettoken m es tok.ps
      if file.ret ≠ ch 'a' then .error (.panic .missingFile)
      else parseredirs fuel (redirTo cmd tok.ret (file.q, file.eq)) file.ps
    else .ok (cmd, p.1)

def parseblock (parseline : Nat → Except Stop (Cmd Span × Nat)) (fuel s : Nat) : Except Stop (Cmd Span × Nat) :=
  let p := peek m es s [ch '(']
  if p.2 then do
    let x ← parseline (gettoken m es p.1).ps
    let p := peek m es x.2 [ch ')']
    if p.2 then parseredirs m es fuel x.1 (gettoken m es p.1).ps else .error (.panic .missingParen)
  else .error (.panic .parseblock)

def argLoop : Nat → Cmd Span → Nat → Nat → Except Stop (Cmd Span × Nat)
  | 0, _, _, _ => .error .fuel
  | fuel + 1, ret, argc, s =>
    let p := peek m es s [ch '|', ch ')', ch '&', ch ';']
    if p.2 then .ok (ret, p.1)
    else
      let tok := gettoken m es p.1
      if tok.ret = 0 then .ok (ret, tok.ps)
      else if tok.ret ≠ ch 'a' then .error (.panic .badToken)
      else
        let ret := ret.pushArg (tok.q, tok.eq)
        let argc := argc + 1
        if MAXARGS ≤ argc then .error (.panic .tooManyArgs)
        else do
          let x ← parseredirs m es fuel ret tok.ps
          argLoop fuel x.1 argc x.2

def backLoop : Nat → Cmd Span → Nat → Except Stop (Cmd Span × Nat)
  | 0, _, _ => .error .fuel
  | fuel + 1, cmd, s =>
    let p := peek m es s [ch '&']
    if p.2 then backLoop fuel (.back cmd) (gettoken m es p.1).ps else .ok (cmd, p.1)

mutual

def parseline : Nat → Nat → Except Stop (Cmd Span × Nat)
  | 0, _ => .error .fuel
  | fuel + 1, s => do
    let x ← parsepipe fuel s
    let x ← backLoop m es fuel x.1 x.2
    let p := peek m es x.2 [ch ';']
    if p.2 then
      let y ← parseline fuel (gettoken m es p.1).ps
      .ok (.list x.1 y.1, y.2)
    else .ok (x.1, p.1)

def parsepipe : Nat → Nat → Except Stop (Cmd Span × Nat)
  | 0, _ => .error .fuel
  | fuel + 1, s => do
    let x ← parseexec fuel s
    let p := peek m es x.2 [ch '|']
    if p.2 then
      let y ← parsepipe fuel (gettoken m es p.1).ps
      .ok (.pipe x.1 y.1, y.2)
    else .ok (x.1, p.1)

def parseexec : Nat → Nat → Except Stop (Cmd Span × Nat)
  | 0, _ => .error .fuel
  | fuel + 1, s =>
    let p := peek m es s [ch '(']
    if p.2 then parseblock m es (parseline fuel) fuel p.1
    else do
      let x ← parseredirs m es fuel (.exec []) p.1
      argLoop m es fuel x.1 0 x.2

end

end

/-- NUL-terminate all the counted strings. -/
def nulterminate (m : Memory) : Cmd Span → Memory
  | .exec argv => argv.foldl (fun m x => update m x.2 0) m
  | .redir cmd file _ _ => update (nulterminate m cmd) file.2 0
  | .pipe left right => nulterminate (nulterminate m left) right
  | .list left right => nulterminate (nulterminate m left) right
  | .back cmd => nulterminate m cmd

structure Text where
  bytes : List Byte
  noNul : 0 ∉ bytes

/-- The text at address 0, with a NUL behind it. -/
def Text.load (t : Text) : Memory := fun i => t.bytes[i]?.getD 0

/-- `parsecmd` after its call of `parseline`: the tree, and the memory that its strings are in. -/
def finish (t : Text) (x : Cmd Span × Nat) : Except Stop (Cmd Span × Memory) :=
  if (peek t.load t.bytes.length x.2 []).1 = t.bytes.length then .ok (x.1, nulterminate t.load x.1)
  else .error (.panic .leftovers)

/-- `strlen` of the text is its length. -/
def parsecmd (t : Text) (fuel : Nat) : Except Stop (Cmd Span × Memory) :=
  parseline t.load t.bytes.length fuel 0 >>= finish t

/-! ## The grammar -/

structure Redirection (ω : Type) where
  file : ω
  mode : Nat
  fd : Nat

/-- The command with the redirections around it, the first innermost. -/
def Cmd.redirect (c : Cmd ω) (rs : List (Redirection ω)) : Cmd ω := rs.foldl (fun c r => .redir c r.file r.mode r.fd) c

/-- The command with `n` times `&` behind it. -/
def Cmd.backs (c : Cmd ω) : Nat → Cmd ω
  | 0 => c
  | n + 1 => (Cmd.back c).backs n

/-- The mode and the descriptor of a redirection by this symbol. -/
def Token.redirMode : Token → Option (Nat × Nat)
  | .lt => some (O_RDONLY, 0)
  | .gt => some (O_WRONLY ||| O_CREATE, 1)
  | .gtgt => some (O_WRONLY ||| O_CREATE, 1)
  | _ => none

/-- `redir*` -/
inductive Redirs : List Token → List (Redirection (List Byte)) → Prop where
  | nil : Redirs [] []
  | cons {t : Token} {w : List Byte} {mode fd : Nat} {ts : List Token} {rs : List (Redirection (List Byte))} :
      t.redirMode = some (mode, fd) → Redirs ts rs → Redirs (t :: .word w :: ts) (⟨w, mode, fd⟩ :: rs)

/-- `(word redir*)*`, with the words and the redirections. -/
inductive Words : List Token → List (List Byte) → List (Redirection (List Byte)) → Prop where
  | nil : Words [] [] []
  | cons {w : List Byte} {ts us : List Token} {ws : List (List Byte)} {rs rs' : List (Redirection (List Byte))} :
      Redirs ts rs → Words us ws rs' → Words (.word w :: (ts ++ us)) (w :: ws) (rs ++ rs')

inductive Nonterminal where
  | line
  | pipe
  | exec

/-- Which tokens are derived from a nonterminal, and the tree of the derivation. -/
inductive Derives : Nonterminal → List Token → Cmd (List Byte) → Prop where
  /-- `line ::= pipe '&'*` -/
  | line {ts : List Token} {c : Cmd (List Byte)} (n : Nat) :
      Derives .pipe ts c → Derives .line (ts ++ replicate n .amp) (c.backs n)
  /-- `line ::= pipe '&'* ';' line` -/
  | seq {ts us : List Token} {c d : Cmd (List Byte)} (n : Nat) : Derives .pipe ts c → Derives .line us d →
      Derives .line (ts ++ (replicate n .amp ++ .semi :: us)) (.list (c.backs n) d)
  /-- `pipe ::= exec` -/
  | single {ts : List Token} {c : Cmd (List Byte)} : Derives .exec ts c → Derives .pipe ts c
  /-- `pipe ::= exec '|' pipe` -/
  | pipe {ts us : List Token} {c d : Cmd (List Byte)} : Derives .exec ts c → Derives .pipe us d →
      Derives .pipe (ts ++ .bar :: us) (.pipe c d)
  /-- `exec ::= '(' line ')' redir*` -/
  | block {ts us : List Token} {c : Cmd (List Byte)} {rs : List (Redirection (List Byte))} :
      Derives .line ts c → Redirs us rs → Derives .exec (.lpar :: (ts ++ .rpar :: us)) (c.redirect rs)
  /-- `exec ::= redir* (word redir*)*`, with at most `MAXARGS - 1` words -/
  | simple {ts us : List Token} {ws : List (List Byte)} {rs rs' : List (Redirection (List Byte))} :
      Redirs ts rs → Words us ws rs' → ws.length ≤ MAXARGS - 1 →
      Derives .exec (ts ++ us) ((Cmd.exec ws).redirect (rs ++ rs'))

/-! ## Trees over the text -/

/-- Two trees of the same shape whose strings are related. -/
inductive Cmd.Rel {α β : Type} (R : α → β → Prop) : Cmd α → Cmd β → Prop where
  | exec {xs : List α} {ys : List β} : List.Forall₂ R xs ys → Rel R (.exec xs) (.exec ys)
  | redir {c : Cmd α} {d : Cmd β} {x : α} {y : β} (mode fd : Nat) :
      Rel R c d → R x y → Rel R (.redir c x mode fd) (.redir d y mode fd)
  | pipe {c c' : Cmd α} {d d' : Cmd β} : Rel R c d → Rel R c' d' → Rel R (.pipe c c') (.pipe d d')
  | list {c c' : Cmd α} {d d' : Cmd β} : Rel R c d → Rel R c' d' → Rel R (.list c c') (.list d d')
  | back {c : Cmd α} {d : Cmd β} : Rel R c d → Rel R (.back c) (.back d)

theorem Cmd.Rel.pushArg {α β : Type} {R : α → β → Prop} {c : Cmd α} {d : Cmd β} {x : α} {y : β} (h : Cmd.Rel R c d)
    (hxy : R x y) : Cmd.Rel R (c.pushArg x) (d.pushArg y) := by
  induction h with
  | exec h => exact .exec (rel_append h (.cons hxy .nil))
  | redir mode fd _ hfile ih => exact .redir mode fd ih hfile
  | pipe h h' => exact .pipe h h'
  | list h h' => exact .list h h'
  | back h => exact .back h

theorem redirect_append (c : Cmd ω) (rs rs' : List (Redirection ω)) :
    c.redirect (rs ++ rs') = (c.redirect rs).redirect rs' := foldl_append

theorem pushArg_redirect (c : Cmd ω) (rs : List (Redirection ω)) (x : ω) :
    (c.redirect rs).pushArg x = (c.pushArg x).redirect rs := by
  induction rs generalizing c with
  | nil => rfl
  | cons r rs ih => exact ih (.redir c r.file r.mode r.fd)

theorem redirTo_code {t : Token} {mode fd : Nat} (h : t.redirMode = some (mode, fd)) (c : Cmd ω) (x : ω) :
    redirTo c t.code x = .redir c x mode fd := by
  cases t <;> cases h <;> rfl

/-! ## Only what is derived is returned -/

/-- Only `panic` stops the parser. -/
def Stop.IsPanic (e : Stop) : Prop := e ≠ .fuel

theorem Stop.isPanic (p : Panic) : Stop.IsPanic (.panic p) := nofun

section

variable {m : Memory} {es s : Nat} {ts : List Token} {cmd : Cmd Span} {d : Cmd (List Byte)}

theorem peek_redirs (t : Token) : (t.sym.any fun c => [ch '<', ch '>'].contains c) = t.redirMode.isSome := by
  cases t <;> rfl

theorem code_eq_word {t : Token} (h : t.code = ch 'a') : ∃ w, t = .word w := by
  cases t <;> first | exact ⟨_, rfl⟩ | cases h

theorem code_ne_zero (t : Token) : t.code ≠ 0 := by
  cases t <;> nofun

theorem parseredirs_sound (hm : IsString m es) (h : At m es s ts) (hrel : Cmd.Rel (WordAt m es) cmd d) :
    Settles (fun fuel => parseredirs m es fuel cmd s) (Outcome Stop.IsPanic fun x => ∃ us vs rs,
      ts = us ++ vs ∧ At m es x.2 vs ∧ Cmd.Rel (WordAt m es) x.1 (d.redirect rs) ∧ Redirs us rs) := by
  induction hn : ts.length using Nat.strongRecOn generalizing s ts cmd d with
  | ind n ih =>
    obtain ⟨hat, -, hpeek⟩ := peek_spec hm h (by decide : ∀ c ∈ [ch '<', ch '>'], c ∈ symbols)
    refine .step ?_
    cases ts with
    | nil =>
      simp only [parseredirs, hpeek]
      exact .pure ⟨[], [], [], rfl, hat, hrel, .nil⟩
    | cons t us =>
      rw [List.head?_cons, Option.any_some, peek_redirs] at hpeek
      cases hmode : t.redirMode with
      | none =>
        rw [hmode] at hpeek
        simp only [parseredirs, hpeek]
        exact .pure ⟨[], t :: us, [], rfl, hat, hrel, .nil⟩
      | some x =>
        rw [hmode] at hpeek
        obtain ⟨hcode, -, hus, -⟩ := gettoken_cons hm hat
        simp only [parseredirs, hpeek, hcode]
        cases us with
        | nil =>
          rw [(gettoken_nil hm hus).1]
          exact .pure (Stop.isPanic _)
        | cons t' us =>
          obtain ⟨hcode', -, hrest, hword⟩ := gettoken_cons hm hus
          rw [hcode']
          by_cases hfile : t'.code = ch 'a'
          · obtain ⟨w, rfl⟩ := code_eq_word hfile
            rw [redirTo_code hmode]
            have hlt : us.length < n := by
              rw [← hn, length_cons, length_cons]
              omega
            refine (ih us.length hlt hrest (hrel.redir x.1 x.2 (hword w rfl)) rfl).imp ?_
            rintro y ⟨vs, ws, rs, rfl, hy, hrel, hrs⟩
            exact ⟨t :: .word w :: vs, ws, ⟨w, x.1, x.2⟩ :: rs, rfl, hy, hrel, .cons hmode hrs⟩
          · simp only [ne_eq, hfile, not_false_eq_true, if_true]
            exact .pure (Stop.isPanic _)

/-- The words that follow, with their redirections, when `argc` words have been read. -/
theorem argLoop_sound (hm : IsString m es) {ws : List (List Byte)} {rs : List (Redirection (List Byte))}
    {argc : Nat} (h : At m es s ts) (hrel : Cmd.Rel (WordAt m es) cmd ((Cmd.exec ws).redirect rs))
    (hargc : argc < MAXARGS) :
    Settles (fun fuel => argLoop m es fuel cmd argc s) (Outcome Stop.IsPanic fun x => ∃ us vs ws' rs',
      ts = us ++ vs ∧ At m es x.2 vs ∧ Cmd.Rel (WordAt m es) x.1 ((Cmd.exec (ws ++ ws')).redirect (rs ++ rs')) ∧
      Words us ws' rs' ∧ argc + ws'.length < MAXARGS) := by
  induction hn : ts.length using Nat.strongRecOn generalizing s ts cmd argc ws rs with
  | ind n ih =>
    obtain ⟨hat, -, hpeek⟩ :=
      peek_spec hm h (by decide : ∀ c ∈ [ch '|', ch ')', ch '&', ch ';'], c ∈ symbols)
    refine .step ?_
    cases hp : (peek m es s [ch '|', ch ')', ch '&', ch ';']).2 with
    | true =>
      simp only [argLoop, hp]
      refine .pure ⟨[], ts, [], [], rfl, hat, ?_, .nil, hargc⟩
      rw [append_nil, append_nil]
      exact hrel
    | false =>
      simp only [argLoop, hp]
      cases ts with
      | nil =>
        obtain ⟨hcode, hend⟩ := gettoken_nil hm hat
        rw [hcode]
        refine .pure ⟨[], [], [], [], rfl, hend, ?_, .nil, hargc⟩
        rw [append_nil, append_nil]
        exact hrel
      | cons t us =>
        obtain ⟨hcode, -, hus, hword⟩ := gettoken_cons hm hat
        rw [hcode]
        simp only [code_ne_zero, if_false, Bool.false_eq_true]
        by_cases hfile : t.code = ch 'a'
        · obtain ⟨w, rfl⟩ := code_eq_word hfile
          by_cases hmax : MAXARGS ≤ argc + 1
          · simp only [hfile, hmax, ne_eq, not_true_eq_false, if_false, if_true]
            exact .pure (Stop.isPanic _)
          · simp only [hfile, hmax, ne_eq, not_true_eq_false, if_false]
            have hpush := hrel.pushArg (hword w rfl)
            rw [pushArg_redirect] at hpush
            refine (parseredirs_sound hm hus hpush).andThen ?_
            rintro x ⟨us', vs, rs', rfl, hx, hrel', hrs'⟩
            rw [Cmd.pushArg, ← redirect_append] at hrel'
            have hlt : vs.length < n := by
              rw [← hn, length_cons, length_append]
              omega
            refine (ih vs.length hlt hx hrel' (by omega) rfl).imp ?_
            rintro y ⟨us'', vs', ws', rs'', rfl, hy, hrel'', hws, hlen⟩
            refine ⟨.word w :: (us' ++ us''), vs', w :: ws', rs' ++ rs'', ?_, hy, ?_, .cons hrs' hws, ?_⟩
            · rw [cons_append, append_assoc]
            · rw [append_assoc, append_assoc] at hrel''
              exact hrel''
            · rw [length_cons]
              omega
        · simp only [ne_eq, hfile, not_false_eq_true, if_true]
          exact .pure (Stop.isPanic _)

theorem backLoop_sound (hm : IsString m es) (h : At m es s ts) (hrel : Cmd.Rel (WordAt m es) cmd d) :
    Settles (fun fuel => backLoop m es fuel cmd s) (Outcome Stop.IsPanic fun x => ∃ n vs,
      ts = replicate n .amp ++ vs ∧ At m es x.2 vs ∧ Cmd.Rel (WordAt m es) x.1 (d.backs n)) := by
  induction hn : ts.length using Nat.strongRecOn generalizing s ts cmd d with
  | ind n ih =>
    obtain ⟨hat, hpeek⟩ := peek_one hm h (rfl : Token.amp.sym = _) (by decide)
    refine .step ?_
    cases hp : (peek m es s [ch '&']).2 with
    | false =>
      simp only [backLoop, hp]
      exact .pure ⟨0, ts, rfl, hat, hrel⟩
    | true =>
      obtain ⟨us, rfl⟩ := hpeek.mp hp
      obtain ⟨-, -, hus, -⟩ := gettoken_cons hm hat
      simp only [backLoop, hp]
      refine (ih us.length (by rw [← hn]; exact Nat.lt_succ_self _) hus hrel.back rfl).imp ?_
      rintro x ⟨n, vs, rfl, hx, hrel⟩
      exact ⟨n + 1, vs, rfl, hx, hrel⟩

/-- The procedure for each nonterminal. -/
def parse (m : Memory) (es : Nat) : Nonterminal → Nat → Nat → Except Stop (Cmd Span × Nat)
  | .line => parseline m es
  | .pipe => parsepipe m es
  | .exec => parseexec m es

/-- What has been parsed at `s` is derived from the nonterminal, and what is left is left. -/
def Parsed (m : Memory) (es : Nat) (k : Nonterminal) (ts : List Token) (x : Cmd Span × Nat) : Prop :=
  ∃ us vs d, ts = us ++ vs ∧ At m es x.2 vs ∧ Cmd.Rel (WordAt m es) x.1 d ∧ Derives k us d

def Sound (m : Memory) (es : Nat) (k : Nonterminal) (ts : List Token) : Prop :=
  ∀ s, At m es s ts → Settles (fun fuel => parse m es k fuel s) (Outcome Stop.IsPanic (Parsed m es k ts))

theorem parseexec_sound (hm : IsString m es) (hline : ∀ us, us.length < ts.length → Sound m es .line us) :
    Sound m es .exec ts := by
  intro s h
  obtain ⟨hat, hpeek⟩ := peek_one hm h (rfl : Token.lpar.sym = _) (by decide)
  refine .step ?_
  cases hp : (peek m es s [ch '(']).2 with
  | false =>
    simp only [parse, parseexec, hp]
    refine (parseredirs_sound hm hat (.exec .nil)).andThen ?_
    rintro x ⟨us, vs, rs, rfl, hx, hrel, hrs⟩
    refine (argLoop_sound hm hx hrel (by decide)).imp ?_
    rintro y ⟨us', vs', ws, rs', rfl, hy, hrel', hws, hlen⟩
    refine ⟨us ++ us', vs', _, (append_assoc ..).symm, hy, hrel', .simple hrs hws ?_⟩
    rw [nil_append]
    omega
  | true =>
    obtain ⟨us, rfl⟩ := hpeek.mp hp
    obtain ⟨hat', hpeek'⟩ := peek_one hm hat (rfl : Token.lpar.sym = _) (by decide)
    obtain ⟨-, -, hus, -⟩ := gettoken_cons hm hat'
    simp only [parse, parseexec, hp, if_true, parseblock, hpeek'.mpr ⟨us, rfl⟩]
    refine (hline us (Nat.lt_succ_self _) _ hus).andThen ?_
    rintro x ⟨us', vs, c, rfl, hx, hrel, hder⟩
    obtain ⟨hat'', hpeek''⟩ := peek_one hm hx (rfl : Token.rpar.sym = _) (by decide)
    cases hp' : (peek m es x.2 [ch ')']).2 with
    | false => exact .pure (Stop.isPanic _)
    | true =>
      obtain ⟨vs, rfl⟩ := hpeek''.mp hp'
      obtain ⟨-, -, hvs, -⟩ := gettoken_cons hm hat''
      refine (parseredirs_sound hm hvs hrel).imp ?_
      rintro y ⟨ws, vs, rs, rfl, hy, hrel', hrs⟩
      refine ⟨.lpar :: (us' ++ .rpar :: ws), vs, _, ?_, hy, hrel', .block hder hrs⟩
      rw [cons_append, append_assoc, cons_append]

theorem parsepipe_sound (hm : IsString m es) (hexec : Sound m es .exec ts)
    (hpipe : ∀ us, us.length < ts.length → Sound m es .pipe us) : Sound m es .pipe ts := by
  intro s h
  refine .step ?_
  simp only [parse, parsepipe]
  refine (hexec s h).andThen ?_
  rintro x ⟨us, vs, c, rfl, hx, hrel, hder⟩
  obtain ⟨hat, hpeek⟩ := peek_one hm hx (rfl : Token.bar.sym = _) (by decide)
  cases hp : (peek m es x.2 [ch '|']).2 with
  | false => exact .pure ⟨us, vs, c, rfl, hat, hrel, .single hder⟩
  | true =>
    obtain ⟨vs, rfl⟩ := hpeek.mp hp
    obtain ⟨-, -, hvs, -⟩ := gettoken_cons hm hat
    refine (hpipe vs ?_ _ hvs).andThen ?_
    · rw [length_append, length_cons]
      omega
    · rintro y ⟨us', vs, c', rfl, hy, hrel', hder'⟩
      refine .pure ⟨us ++ .bar :: us', vs, _, ?_, hy, hrel.pipe hrel', .pipe hder hder'⟩
      rw [append_assoc, cons_append]

theorem parseline_sound (hm : IsString m es) (hpipe : Sound m es .pipe ts)
    (hline : ∀ us, us.length < ts.length → Sound m es .line us) : Sound m es .line ts := by
  intro s h
  refine .step ?_
  simp only [parse, parseline]
  refine (hpipe s h).andThen ?_
  rintro x ⟨us, vs, c, rfl, hx, hrel, hder⟩
  refine (backLoop_sound hm hx hrel).andThen ?_
  rintro y ⟨n, vs, rfl, hy, hrel⟩
  obtain ⟨hat, hpeek⟩ := peek_one hm hy (rfl : Token.semi.sym = _) (by decide)
  cases hp : (peek m es y.2 [ch ';']).2 with
  | false => exact .pure ⟨_, vs, _, (append_assoc ..).symm, hat, hrel, .line n hder⟩
  | true =>
    obtain ⟨vs, rfl⟩ := hpeek.mp hp
    obtain ⟨-, -, hvs, -⟩ := gettoken_cons hm hat
    refine (hline vs ?_ _ hvs).andThen ?_
    · rw [length_append, length_append, length_cons]
      omega
    · rintro z ⟨us', vs, c', rfl, hz, hrel', hder'⟩
      refine .pure ⟨_, vs, _, ?_, hz, hrel.list hrel', .seq n hder hder'⟩
      rw [append_assoc, append_assoc, cons_append]

theorem parse_sound (hm : IsString m es) (k : Nonterminal) (ts : List Token) : Sound m es k ts := by
  induction hn : ts.length using Nat.strongRecOn generalizing ts k with
  | ind n ih =>
    have hshort : ∀ k us, us.length < ts.length → Sound m es k us := fun k us hus => ih us.length (hn ▸ hus) k us rfl
    have hexec := parseexec_sound hm (hshort .line)
    have hpipe := parsepipe_sound hm hexec (hshort .pipe)
    cases k with
    | exec => exact hexec
    | pipe => exact hpipe
    | line => exact parseline_sound hm hpipe (hshort .line)

/-! ## What is derived is returned -/

/-- It returns something with `P`. -/
def Returns {α : Type} (f : Nat → Except Stop α) (P : α → Prop) : Prop := Settles f (Outcome (fun _ => False) P)

/-- What can follow a text derived from the nonterminal. -/
def follow : Nonterminal → List Token
  | .line => [.rpar]
  | .pipe => [.rpar, .amp, .semi]
  | .exec => [.rpar, .amp, .semi, .bar]

def Follows (k : Nonterminal) (vs : List Token) : Prop := ∀ t, vs.head? = some t → t ∈ follow k

variable {us vs : List Token} {rs : List (Redirection (List Byte))}

theorem follows_nil (k : Nonterminal) : Follows k [] := by
  rintro t ⟨⟩

theorem follows_cons {k : Nonterminal} {t : Token} (h : t ∈ follow k) : Follows k (t :: vs) := by
  rintro _ ⟨⟩
  exact h

theorem Follows.ne {k : Nonterminal} {t : Token} (h : Follows k vs) (ht : t ∉ follow k) : ¬∃ us, vs = t :: us := by
  rintro ⟨us, rfl⟩
  exact ht (h t rfl)

/-- No redirection is next. -/
def NoRedir (vs : List Token) : Prop := ∀ t, vs.head? = some t → t.redirMode = none

theorem Follows.noRedir {k : Nonterminal} (h : Follows k vs) : NoRedir vs := by
  intro t ht
  have hmem := h t ht
  cases k <;> simp only [follow, mem_cons, not_mem_nil, or_false] at hmem
  · subst hmem
    rfl
  · rcases hmem with rfl | rfl | rfl <;> rfl
  · rcases hmem with rfl | rfl | rfl | rfl <;> rfl

theorem parseredirs_complete (hm : IsString m es) (hrs : Redirs us rs) (h : At m es s (us ++ vs)) (hvs : NoRedir vs)
    (hrel : Cmd.Rel (WordAt m es) cmd d) :
    Returns (fun fuel => parseredirs m es fuel cmd s) fun x =>
      At m es x.2 vs ∧ Cmd.Rel (WordAt m es) x.1 (d.redirect rs) := by
  induction hrs generalizing s cmd d with
  | nil =>
    obtain ⟨hat, -, hpeek⟩ := peek_spec hm h (by decide : ∀ c ∈ [ch '<', ch '>'], c ∈ symbols)
    have hfalse : (peek m es s [ch '<', ch '>']).2 = false := by
      rw [hpeek]
      cases vs with
      | nil => rfl
      | cons t vs =>
        change (t.sym.any fun c => [ch '<', ch '>'].contains c) = false
        rw [peek_redirs, hvs t rfl]
        rfl
    refine .step ?_
    simp only [parseredirs, hfalse]
    exact .pure ⟨hat, hrel⟩
  | @cons t w mode fd ts rs hmode _ ih =>
    obtain ⟨hat, -, hpeek⟩ := peek_spec hm h (by decide : ∀ c ∈ [ch '<', ch '>'], c ∈ symbols)
    have htrue : (peek m es s [ch '<', ch '>']).2 = true := by
      rw [hpeek]
      change (t.sym.any fun c => [ch '<', ch '>'].contains c) = true
      rw [peek_redirs, hmode]
      rfl
    obtain ⟨hcode, -, hfile, -⟩ := gettoken_cons hm hat
    obtain ⟨hword, -, hrest, hspan⟩ := gettoken_cons hm hfile
    refine .step ?_
    simp only [parseredirs, htrue, hcode, redirTo_code hmode, hword]
    exact ih hrest (hrel.redir mode fd (hspan w rfl))

theorem Words.noRedir {ws : List (List Byte)} (h : Words us ws rs) (hvs : NoRedir vs) : NoRedir (us ++ vs) := by
  cases h with
  | nil => exact hvs
  | cons =>
    rintro _ ⟨⟩
    rfl

theorem peek_stop (hm : IsString m es) (h : At m es s vs) (hvs : Follows .exec vs) :
    vs = [] ∨ (peek m es s [ch '|', ch ')', ch '&', ch ';']).2 = true := by
  obtain ⟨-, -, hpeek⟩ := peek_spec hm h (by decide : ∀ c ∈ [ch '|', ch ')', ch '&', ch ';'], c ∈ symbols)
  cases vs with
  | nil => exact .inl rfl
  | cons t vs =>
    right
    rw [hpeek]
    have hmem := hvs t rfl
    simp only [follow, mem_cons, not_mem_nil, or_false] at hmem
    rcases hmem with rfl | rfl | rfl | rfl <;> rfl

theorem argLoop_complete (hm : IsString m es) {ws ws' : List (List Byte)} {rs' : List (Redirection (List Byte))}
    {argc : Nat} (hws : Words us ws' rs') (h : At m es s (us ++ vs)) (hvs : Follows .exec vs)
    (hrel : Cmd.Rel (WordAt m es) cmd ((Cmd.exec ws).redirect rs)) (hargc : argc + ws'.length < MAXARGS) :
    Returns (fun fuel => argLoop m es fuel cmd argc s) fun x =>
      At m es x.2 vs ∧ Cmd.Rel (WordAt m es) x.1 ((Cmd.exec (ws ++ ws')).redirect (rs ++ rs')) := by
  induction hws generalizing s cmd argc ws rs with
  | nil =>
    obtain ⟨hat, -, -⟩ :=
      peek_spec hm h (by decide : ∀ c ∈ [ch '|', ch ')', ch '&', ch ';'], c ∈ symbols)
    refine .step ?_
    rw [append_nil, append_nil]
    rw [nil_append] at h hat
    rcases peek_stop hm h hvs with rfl | hp
    · obtain ⟨hcode, hend⟩ := gettoken_nil hm hat
      cases hp : (peek m es s [ch '|', ch ')', ch '&', ch ';']).2 with
      | true =>
        simp only [argLoop, hp]
        exact .pure ⟨hat, hrel⟩
      | false =>
        simp only [argLoop, hp, hcode]
        exact .pure ⟨hend, hrel⟩
    · simp only [argLoop, hp]
      exact .pure ⟨hat, hrel⟩
  | @cons w ts us ws' rs₁ rs₂ hrs hws ih =>
    obtain ⟨hat, -, hpeek⟩ :=
      peek_spec hm h (by decide : ∀ c ∈ [ch '|', ch ')', ch '&', ch ';'], c ∈ symbols)
    have hfalse : (peek m es s [ch '|', ch ')', ch '&', ch ';']).2 = false := hpeek
    rw [cons_append, append_assoc] at hat
    obtain ⟨hcode, -, hrest, hspan⟩ := gettoken_cons hm hat
    rw [length_cons] at hargc
    have hmax : ¬MAXARGS ≤ argc + 1 := by omega
    have hword : Token.code (.word w) = ch 'a' := rfl
    refine .step ?_
    simp only [argLoop, hfalse, hcode, hword, hmax]
    have hpush := hrel.pushArg (hspan w rfl)
    rw [pushArg_redirect] at hpush
    refine (parseredirs_complete hm hrs hrest (hws.noRedir hvs.noRedir) hpush).andThen ?_
    rintro x ⟨hx, hrel'⟩
    rw [Cmd.pushArg, ← redirect_append] at hrel'
    refine (ih hx hrel' (by omega)).imp ?_
    rintro y ⟨hy, hrel''⟩
    rw [append_assoc, append_assoc] at hrel''
    exact ⟨hy, hrel''⟩

theorem backLoop_complete (hm : IsString m es) {n : Nat} (h : At m es s (replicate n .amp ++ vs))
    (hvs : ¬∃ us, vs = .amp :: us) (hrel : Cmd.Rel (WordAt m es) cmd d) :
    Returns (fun fuel => backLoop m es fuel cmd s) fun x =>
      At m es x.2 vs ∧ Cmd.Rel (WordAt m es) x.1 (d.backs n) := by
  induction n generalizing s cmd d with
  | zero =>
    obtain ⟨hat, hpeek⟩ := peek_one hm h (rfl : Token.amp.sym = _) (by decide)
    refine .step ?_
    simp only [backLoop, Bool.eq_false_iff.mpr (mt hpeek.mp hvs)]
    exact .pure ⟨hat, hrel⟩
  | succ n ih =>
    obtain ⟨hat, hpeek⟩ := peek_one hm h (rfl : Token.amp.sym = _) (by decide)
    rw [replicate_succ, cons_append] at hat
    obtain ⟨-, -, hrest, -⟩ := gettoken_cons hm hat
    refine .step ?_
    simp only [backLoop, hpeek.mpr ⟨_, rfl⟩]
    exact ih hrest hrel.back

theorem follows_amps {n : Nat} (h : Follows .pipe vs) : Follows .pipe (replicate n .amp ++ vs) := by
  cases n with
  | zero => exact h
  | succ n => exact follows_cons (by decide)

theorem Follows.pipe (h : Follows .line vs) : Follows .pipe vs :=
  fun t ht => (by decide : ∀ t ∈ follow .line, t ∈ follow .pipe) t (h t ht)

theorem Follows.exec (h : Follows .pipe vs) : Follows .exec vs :=
  fun t ht => (by decide : ∀ t ∈ follow .pipe, t ∈ follow .exec) t (h t ht)

theorem parse_complete (hm : IsString m es) {k : Nonterminal} (hder : Derives k us d) (h : At m es s (us ++ vs))
    (hvs : Follows k vs) :
    Returns (fun fuel => parse m es k fuel s) fun x => At m es x.2 vs ∧ Cmd.Rel (WordAt m es) x.1 d := by
  induction hder generalizing s vs with
  | @line ts c n _ ih =>
    rw [append_assoc] at h
    refine .step ?_
    simp only [parse, parseline]
    refine (ih h (follows_amps hvs.pipe)).andThen ?_
    rintro x ⟨hx, hrel⟩
    refine (backLoop_complete hm hx (hvs.ne (by decide)) hrel).andThen ?_
    rintro y ⟨hy, hrel⟩
    obtain ⟨hat, hpeek⟩ := peek_one hm hy (rfl : Token.semi.sym = _) (by decide)
    simp only [Bool.eq_false_iff.mpr (mt hpeek.mp (hvs.ne (by decide)))]
    exact .pure ⟨hat, hrel⟩
  | @seq ts us c d n _ _ ih ih' =>
    rw [append_assoc, append_assoc, cons_append] at h
    refine .step ?_
    simp only [parse, parseline]
    refine (ih h (follows_amps (follows_cons (by decide)))).andThen ?_
    rintro x ⟨hx, hrel⟩
    refine (backLoop_complete hm hx nofun hrel).andThen ?_
    rintro y ⟨hy, hrel⟩
    obtain ⟨hat, hpeek⟩ := peek_one hm hy (rfl : Token.semi.sym = _) (by decide)
    obtain ⟨-, -, hrest, -⟩ := gettoken_cons hm hat
    simp only [hpeek.mpr ⟨_, rfl⟩]
    refine (ih' hrest hvs).andThen ?_
    rintro z ⟨hz, hrel'⟩
    exact .pure ⟨hz, hrel.list hrel'⟩
  | @single ts c _ ih =>
    refine .step ?_
    simp only [parse, parsepipe]
    refine (ih h hvs.exec).andThen ?_
    rintro x ⟨hx, hrel⟩
    obtain ⟨hat, hpeek⟩ := peek_one hm hx (rfl : Token.bar.sym = _) (by decide)
    simp only [Bool.eq_false_iff.mpr (mt hpeek.mp (hvs.ne (by decide)))]
    exact .pure ⟨hat, hrel⟩
  | @pipe ts us c d _ _ ih ih' =>
    rw [append_assoc, cons_append] at h
    refine .step ?_
    simp only [parse, parsepipe]
    refine (ih h (follows_cons (by decide))).andThen ?_
    rintro x ⟨hx, hrel⟩
    obtain ⟨hat, hpeek⟩ := peek_one hm hx (rfl : Token.bar.sym = _) (by decide)
    obtain ⟨-, -, hrest, -⟩ := gettoken_cons hm hat
    simp only [hpeek.mpr ⟨_, rfl⟩]
    refine (ih' hrest hvs).andThen ?_
    rintro z ⟨hz, hrel'⟩
    exact .pure ⟨hz, hrel.pipe hrel'⟩
  | @block ts us c rs _ hrs ih =>
    rw [cons_append, append_assoc, cons_append] at h
    obtain ⟨hat, hpeek⟩ := peek_one hm h (rfl : Token.lpar.sym = _) (by decide)
    obtain ⟨hat', hpeek'⟩ := peek_one hm hat (rfl : Token.lpar.sym = _) (by decide)
    obtain ⟨-, -, hrest, -⟩ := gettoken_cons hm hat'
    refine .step ?_
    simp only [parse, parseexec, parseblock, hpeek.mpr ⟨_, rfl⟩, hpeek'.mpr ⟨_, rfl⟩, if_true]
    refine (ih hrest (follows_cons (by decide))).andThen ?_
    rintro x ⟨hx, hrel⟩
    obtain ⟨hat, hpeek⟩ := peek_one hm hx (rfl : Token.rpar.sym = _) (by decide)
    obtain ⟨-, -, hrest, -⟩ := gettoken_cons hm hat
    simp only [hpeek.mpr ⟨_, rfl⟩]
    exact parseredirs_complete hm hrs hrest hvs.noRedir hrel
  | @simple ts us ws rs rs' hrs hws hlen =>
    rw [append_assoc] at h
    obtain ⟨hat, hpeek⟩ := peek_one hm h (rfl : Token.lpar.sym = _) (by decide)
    have hfalse : (peek m es s [ch '(']).2 = false := by
      rw [Bool.eq_false_iff]
      refine mt hpeek.mp ?_
      cases hrs with
      | nil =>
        cases hws with
        | nil => exact hvs.ne (by decide)
        | cons => nofun
      | cons hmode =>
        rintro ⟨_, heq⟩
        cases heq
        cases hmode
    refine .step ?_
    simp only [parse, parseexec, hfalse]
    refine (parseredirs_complete hm hrs hat (hws.noRedir hvs.noRedir) (.exec .nil)).andThen ?_
    rintro x ⟨hx, hrel⟩
    exact argLoop_complete hm hws hx hvs hrel (by simp only [MAXARGS] at hlen ⊢; omega)

end

/-! ## The strings of the tree -/

/-- The string at `q`, of at most `n` characters. -/
def stringAt (m : Memory) : Nat → Nat → List Byte
  | 0, _ => []
  | n + 1, q => if m q = 0 then [] else m q :: stringAt m n (q + 1)

/-- A string of the text, which ends at `es` at the latest. -/
def readString (m : Memory) (es : Nat) (x : Span) : List Byte := stringAt m (es - x.1) x.1

def Cmd.map {α β : Type} (f : α → β) : Cmd α → Cmd β
  | .exec argv => .exec (argv.map f)
  | .redir cmd file mode fd => .redir (cmd.map f) (f file) mode fd
  | .pipe left right => .pipe (left.map f) (right.map f)
  | .list left right => .list (left.map f) (right.map f)
  | .back cmd => .back (cmd.map f)

def Cmd.strings : Cmd ω → List ω
  | .exec argv => argv
  | .redir cmd file _ _ => cmd.strings ++ [file]
  | .pipe left right => left.strings ++ right.strings
  | .list left right => left.strings ++ right.strings
  | .back cmd => cmd.strings

theorem Cmd.Rel.map_eq {α β : Type} {R : α → β → Prop} {f : α → β} {c : Cmd α} {d : Cmd β} (h : Cmd.Rel R c d)
    (hf : ∀ x ∈ c.strings, ∀ y, R x y → f x = y) : c.map f = d := by
  induction h with
  | @exec xs ys h =>
    have hxs : xs.map f = ys := by
      induction h with
      | nil => rfl
      | @cons x y xs ys hxy _ ih =>
        rw [map_cons, hf x (mem_cons_self ..) y hxy, ih fun x hx => hf x (mem_cons_of_mem _ hx)]
    rw [Cmd.map, hxs]
  | redir mode fd _ hfile ih =>
    rw [Cmd.map, ih fun x hx => hf x (mem_append_left _ hx),
      hf _ (mem_append_right _ (mem_singleton_self _)) _ hfile]
  | pipe _ _ ih ih' =>
    rw [Cmd.map, ih fun x hx => hf x (mem_append_left _ hx), ih' fun x hx => hf x (mem_append_right _ hx)]
  | list _ _ ih ih' =>
    rw [Cmd.map, ih fun x hx => hf x (mem_append_left _ hx), ih' fun x hx => hf x (mem_append_right _ hx)]
  | back _ ih => rw [Cmd.map, ih hf]

theorem Cmd.Rel.exists_of_mem {α β : Type} {R : α → β → Prop} {c : Cmd α} {d : Cmd β} (h : Cmd.Rel R c d) {x : α}
    (hx : x ∈ c.strings) : ∃ y, R x y := by
  induction h with
  | exec h =>
    induction h with
    | nil => cases hx
    | @cons x' y xs ys hxy _ ih =>
      rcases List.mem_cons.mp hx with rfl | hx
      · exact ⟨y, hxy⟩
      · exact ih hx
  | redir mode fd _ hfile ih =>
    rcases List.mem_append.mp hx with hx | hx
    · exact ih hx
    · rw [List.mem_singleton.mp hx]
      exact ⟨_, hfile⟩
  | pipe _ _ ih ih' => exact (List.mem_append.mp hx).elim ih ih'
  | list _ _ ih ih' => exact (List.mem_append.mp hx).elim ih ih'
  | back _ ih => exact ih hx

theorem nulterminate_eq (m : Memory) (c : Cmd Span) :
    nulterminate m c = c.strings.foldl (fun m x => update m x.2 0) m := by
  induction c generalizing m with
  | exec argv => rfl
  | redir c file mode fd ih => rw [nulterminate, ih, Cmd.strings, foldl_append, foldl_cons, foldl_nil]
  | pipe left right ih ih' => rw [nulterminate, ih, ih', Cmd.strings, foldl_append]
  | list left right ih ih' => rw [nulterminate, ih, ih', Cmd.strings, foldl_append]
  | back c ih => exact ih m

theorem nulterminate_apply (m : Memory) (c : Cmd Span) (i : Nat) :
    (∃ x ∈ c.strings, x.2 = i) ∧ nulterminate m c i = 0 ∨
      (∀ x ∈ c.strings, x.2 ≠ i) ∧ nulterminate m c i = m i := by
  rw [nulterminate_eq]
  induction c.strings using List.reverseRecOn with
  | nil => exact .inr ⟨nofun, rfl⟩
  | append_singleton xs x ih =>
    rw [foldl_append, foldl_cons, foldl_nil, update_apply]
    by_cases hx : i = x.2
    · exact .inl ⟨⟨x, mem_append_right _ (mem_singleton_self x), hx.symm⟩, if_pos hx⟩
    · rw [if_neg hx]
      rcases ih with ⟨⟨y, hy, hyi⟩, h⟩ | ⟨hne, h⟩
      · exact .inl ⟨⟨y, mem_append_left _ hy, hyi⟩, h⟩
      · refine .inr ⟨fun y hy => ?_, h⟩
        rcases List.mem_append.mp hy with hy | hy
        · exact hne y hy
        · rw [List.mem_singleton.mp hy]
          exact Ne.symm hx

section

variable {m : Memory} {es : Nat}

theorem stringAt_eq {n q e : Nat} (hq : q ≤ e) (hn : e ≤ q + n) (hchars : ∀ i, q ≤ i → i < e → m i ≠ 0)
    (hend : e < q + n → m e = 0) : stringAt m n q = text m q e := by
  induction n generalizing q with
  | zero =>
    obtain rfl : q = e := by omega
    rw [text_self]
    rfl
  | succ n ih =>
    rcases Nat.lt_or_eq_of_le hq with hlt | rfl
    · rw [stringAt, if_neg (hchars q (le_refl q) hlt), text_cons hlt,
        ih hlt (by omega) (fun i hi => hchars i (by omega)) fun h => hend (by omega)]
    · rw [stringAt, if_pos (hend (by omega)), text_self]

theorem nulterminate_same {c : Cmd Span} {d : Cmd (List Byte)} (hrel : Cmd.Rel (WordAt m es) c d) {x : Span}
    {w : List Byte} (hw : WordAt m es x w) {i : Nat} (hi : x.1 ≤ i) (hlt : i < x.2) : nulterminate m c i = m i := by
  rcases nulterminate_apply m c i with ⟨⟨y, hy, hyi⟩, -⟩ | ⟨-, h⟩
  · obtain ⟨v, hv⟩ := hrel.exists_of_mem hy
    have hstop := hv.stop (by rw [hyi]; exact lt_of_lt_of_le hlt hw.end_le)
    rw [hyi, hw.chars i hi hlt] at hstop
    cases hstop
  · exact h

theorem nulterminate_end {c : Cmd Span} {x : Span} (hx : x ∈ c.strings) : nulterminate m c x.2 = 0 := by
  rcases nulterminate_apply m c x.2 with ⟨-, h⟩ | ⟨hne, -⟩
  · exact h
  · exact absurd rfl (hne x hx)

def CString (m : Memory) (q : Nat) (w : List Byte) : Prop :=
  0 ∉ w ∧ text m q (q + w.length) = w ∧ m (q + w.length) = 0

theorem cstring_nulterminate (hm : IsString m es) {c : Cmd Span} {d : Cmd (List Byte)}
    (hrel : Cmd.Rel (WordAt m es) c d) {x : Span} (hx : x ∈ c.strings) {w : List Byte} (hw : WordAt m es x w) :
    CString (nulterminate m c) x.1 w := by
  have hle := hw.le
  have hlen : x.1 + w.length = x.2 := by
    rw [← hw.text_eq, text, length_map, length_range']
    omega
  refine ⟨?_, ?_, ?_⟩
  · intro hmem
    rw [← hw.text_eq] at hmem
    obtain ⟨i, hi, hzero⟩ := List.mem_map.mp hmem
    rw [mem_range'_1] at hi
    have hend := hw.end_le
    exact hm.nonzero i (by omega) hzero
  · nth_rewrite 2 [← hw.text_eq]
    rw [hlen]
    refine map_congr_left fun i hi => ?_
    rw [mem_range'_1] at hi
    exact nulterminate_same hrel hw hi.1 (by omega)
  · rw [hlen]
    exact nulterminate_end hx

theorem readString_nulterminate (hm : IsString m es) {c : Cmd Span} {d : Cmd (List Byte)}
    (hrel : Cmd.Rel (WordAt m es) c d) : c.map (readString (nulterminate m c) es) = d := by
  refine hrel.map_eq fun x hx w hw => ?_
  have hle := hw.le
  have hend := hw.end_le
  rw [readString, stringAt_eq hw.le (by omega) ?_ fun _ => nulterminate_end hx, ← hw.text_eq]
  · refine map_congr_left fun i hi => ?_
    rw [mem_range'_1] at hi
    exact nulterminate_same hrel hw hi.1 (by omega)
  · intro i hi hlt
    rw [nulterminate_same hrel hw hi hlt]
    exact hm.nonzero i (lt_of_lt_of_le hlt hw.end_le)

end

/-! ## Words and redirections -/

def Cmd.args : Cmd ω → List ω
  | .exec argv => argv
  | .redir cmd _ _ _ => cmd.args
  | .pipe left right => left.args ++ right.args
  | .list left right => left.args ++ right.args
  | .back cmd => cmd.args

def Cmd.redirs : Cmd ω → List (Redirection ω)
  | .exec _ => []
  | .redir cmd file mode fd => cmd.redirs ++ [⟨file, mode, fd⟩]
  | .pipe left right => left.redirs ++ right.redirs
  | .list left right => left.redirs ++ right.redirs
  | .back cmd => cmd.redirs

/-- The words that follow no redirection symbol, and the redirections by the other words. The first argument is
what symbol comes before. -/
def sortWords : Option (Nat × Nat) → List Token → List (List Byte) × List (Redirection (List Byte))
  | _, [] => ([], [])
  | none, .word w :: ts => (w :: (sortWords none ts).1, (sortWords none ts).2)
  | some (mode, fd), .word w :: ts => ((sortWords none ts).1, ⟨w, mode, fd⟩ :: (sortWords none ts).2)
  | _, t :: ts => sortWords t.redirMode ts

theorem args_redirect (c : Cmd ω) (rs : List (Redirection ω)) :
    (c.redirect rs).args = c.args ∧ (c.redirect rs).redirs = c.redirs ++ rs := by
  induction rs generalizing c with
  | nil => exact ⟨rfl, (append_nil _).symm⟩
  | cons r rs ih =>
    obtain ⟨hargs, hredirs⟩ := ih (.redir c r.file r.mode r.fd)
    refine ⟨hargs, hredirs.trans ?_⟩
    rw [Cmd.redirs, append_assoc]
    rfl

theorem args_backs (c : Cmd ω) (n : Nat) : (c.backs n).args = c.args ∧ (c.backs n).redirs = c.redirs := by
  induction n generalizing c with
  | zero => exact ⟨rfl, rfl⟩
  | succ n ih => exact ih (.back c)

theorem Redirs.sortWords_eq {us : List Token} {rs : List (Redirection (List Byte))} (h : Redirs us rs)
    (vs : List Token) : sortWords none (us ++ vs) = ((sortWords none vs).1, rs ++ (sortWords none vs).2) := by
  induction h with
  | nil => rfl
  | @cons t w mode fd ts rs hmode _ ih =>
    have hstep : sortWords none (t :: .word w :: ts ++ vs) = sortWords t.redirMode (.word w :: (ts ++ vs)) := by
      cases t <;> cases hmode <;> rfl
    rw [hstep, hmode, sortWords, ih]
    rfl

theorem Words.sortWords_eq {us : List Token} {ws : List (List Byte)} {rs : List (Redirection (List Byte))}
    (h : Words us ws rs) (vs : List Token) :
    sortWords none (us ++ vs) = (ws ++ (sortWords none vs).1, rs ++ (sortWords none vs).2) := by
  induction h with
  | nil => rfl
  | cons hrs _ ih =>
    rw [cons_append, append_assoc, sortWords, hrs.sortWords_eq, ih, append_assoc]
    rfl

theorem sortWords_amps (n : Nat) (vs : List Token) :
    sortWords none (replicate n .amp ++ vs) = sortWords none vs := by
  induction n with
  | zero => rfl
  | succ n ih => exact ih

theorem Derives.sortWords_eq {k : Nonterminal} {us : List Token} {d : Cmd (List Byte)} (h : Derives k us d)
    (vs : List Token) :
    sortWords none (us ++ vs) = (d.args ++ (sortWords none vs).1, d.redirs ++ (sortWords none vs).2) := by
  induction h generalizing vs with
  | @line ts c n _ ih => rw [append_assoc, ih, sortWords_amps, (args_backs c n).1, (args_backs c n).2]
  | @seq ts us c d n _ _ ih ih' =>
    have hsemi : sortWords none (.semi :: (us ++ vs)) = sortWords none (us ++ vs) := rfl
    rw [append_assoc, ih, append_assoc, sortWords_amps, cons_append, hsemi, ih', Cmd.args, Cmd.redirs,
      (args_backs c n).1, (args_backs c n).2, append_assoc, append_assoc]
  | single _ ih => exact ih vs
  | @pipe ts us c d _ _ ih ih' =>
    have hbar : sortWords none (.bar :: (us ++ vs)) = sortWords none (us ++ vs) := rfl
    rw [append_assoc, ih, cons_append, hbar, ih', Cmd.args, Cmd.redirs, append_assoc, append_assoc]
  | @block ts us c rs _ hrs ih =>
    have hpar : ∀ ws, sortWords none (.lpar :: ws) = sortWords none ws ∧ sortWords none (.rpar :: ws) = sortWords none
        ws :=
      fun ws => ⟨rfl, rfl⟩
    rw [cons_append, (hpar _).1, append_assoc, ih, cons_append, (hpar _).2, hrs.sortWords_eq,
      (args_redirect c rs).1, (args_redirect c rs).2, append_assoc]
  | @simple ts us ws rs rs' hrs hws _ =>
    rw [append_assoc, hrs.sortWords_eq, hws.sortWords_eq, (args_redirect _ _).1, (args_redirect _ _).2,
      ← append_assoc]
    rfl

/-! ## parsecmd -/

theorem Text.load_isString (t : Text) : IsString t.load t.bytes.length where
  nonzero i hi := by
    rw [Text.load, List.getElem?_eq_getElem hi, Option.getD_some]
    intro heq
    exact t.noNul (heq ▸ getElem_mem hi)
  nul := by
    rw [Text.load, List.getElem?_eq_none (le_refl _)]
    rfl

theorem Text.text_load (t : Text) : text t.load 0 t.bytes.length = t.bytes := by
  rw [text, Nat.sub_zero, ← range_eq_range']
  refine ext_getElem (by simp) fun i _ hi => ?_
  rw [getElem_map, getElem_range, Text.load, List.getElem?_eq_getElem hi]
  rfl

theorem Text.wordAt_eq (t : Text) {x : Span} {w : List Byte} (h : WordAt t.load t.bytes.length x w) :
    w = (t.bytes.drop x.1).take (x.2 - x.1) := by
  have hle := h.le
  have hend := h.end_le
  rw [← h.text_eq]
  refine ext_getElem (by simp [text]; omega) fun i hi _ => ?_
  have hlt : x.1 + i < t.bytes.length := by
    simp only [text, length_map, length_range'] at hi
    omega
  simp [text, Text.load, hlt]

theorem peek_end {m : Memory} {es s : Nat} {vs : List Token} (h : At m es s vs) :
    (peek m es s []).1 = es ↔ vs = [] := by
  obtain ⟨⟨hes, hlex⟩, -, hblank⟩ := h.skip
  change skipWhile m es isBlank s = es ↔ vs = []
  rcases Nat.lt_or_eq_of_le hes with hlt | heq
  · rw [text_cons hlt] at hlex
    obtain ⟨t, us, rfl, -⟩ := lexes_sym (hblank hlt) hlex
    exact ⟨fun heq => absurd heq (ne_of_lt hlt), nofun⟩
  · rw [heq, text_self, lexes_nil] at hlex
    exact ⟨fun _ => hlex, fun _ => heq⟩

/-- For every text: `parsecmd` ends, and it returns a tree, with the strings as they are then read from
memory, exactly if that is the tree of a derivation of the tokens of the text; in which every word and redirection
of the text stands once and in order. -/
theorem parsecmd_accepts_grammar (t : Text) : ∃ ts, (∀ us, Lexes t.bytes us ↔ us = ts) ∧
    Settles (parsecmd t) fun r => r ≠ .error .fuel ∧ ∀ d,
      ((∃ c m, r = .ok (c, m) ∧ c.map (readString m t.bytes.length) = d) ↔ Derives .line ts d) ∧
      (Derives .line ts d → (d.args, d.redirs) = sortWords none ts) := by
  obtain ⟨ts, hts⟩ := lexes_exists_unique t.bytes
  refine ⟨ts, hts, ?_⟩
  have hm := t.load_isString
  have hat : At t.load t.bytes.length 0 ts := by
    refine ⟨Nat.zero_le _, ?_⟩
    rw [t.text_load, hts]
  obtain ⟨r, hr, n, hn⟩ := parse_sound hm .line ts 0 hat
  have hcomplete : ∀ d, Derives .line ts d →
      Outcome (fun _ => False) (fun x => At t.load t.bytes.length x.2 [] ∧ Cmd.Rel (WordAt t.load t.bytes.length) x.1 d)
      r := by
    intro d hder
    have hsettles : Settles (fun fuel => parse t.load t.bytes.length .line fuel 0) (· = r) := ⟨r, rfl, n, hn⟩
    obtain ⟨_, ⟨rfl, hd⟩, -⟩ := hsettles.and (parse_complete hm hder (by rw [append_nil]; exact hat) (follows_nil _))
    exact hd
  have hwords : ∀ d, Derives .line ts d → (d.args, d.redirs) = sortWords none ts := by
    intro d hder
    have h := hder.sortWords_eq []
    rw [append_nil] at h
    rw [h, sortWords, append_nil, append_nil]
  refine ⟨r >>= finish t, ?_, n, fun fuel hfuel => congrArg (· >>= finish t) (hn fuel hfuel)⟩
  cases r with
  | error e =>
    refine ⟨fun heq => hr (Except.error.inj heq), fun d => ⟨⟨?_, fun hder => (hcomplete d hder).elim⟩, hwords d⟩⟩
    rintro ⟨c, m, heq, -⟩
    cases heq
  | ok x =>
    change finish t x ≠ _ ∧ ∀ d, ((∃ c m, finish t x = _ ∧ _) ↔ _) ∧ _
    obtain ⟨us, vs, d', rfl, hx, hrel, hder⟩ := hr
    have hstring := readString_nulterminate hm hrel
    unfold finish
    by_cases hend : (peek t.load t.bytes.length x.2 []).1 = t.bytes.length
    · rw [if_pos hend]
      obtain rfl := (peek_end hx).mp hend
      rw [append_nil] at hwords hcomplete ⊢
      refine ⟨nofun, fun d => ⟨⟨?_, fun hd => ?_⟩, hwords d⟩⟩
      · rintro ⟨c, m, heq, rfl⟩
        cases heq
        rw [hstring]
        exact hder
      · exact ⟨_, _, rfl, readString_nulterminate hm (hcomplete d hd).2⟩
    · rw [if_neg hend]
      refine ⟨nofun, fun d => ⟨⟨?_, fun hd => absurd ((peek_end (hcomplete d hd).1).mpr rfl) hend⟩, hwords d⟩⟩
      rintro ⟨c, m, heq, -⟩
      cases heq

/-- For every text that `parsecmd` accepts, each string of the tree is one of its words, from one end to the other, and
is read from memory as it stands in the text. -/
theorem parsecmd_strings_intact (t : Text) :
    Settles (parsecmd t) fun r => r ≠ .error .fuel ∧ ∀ c m, r = .ok (c, m) → ∀ x ∈ c.strings, ∃ w,
      WordAt t.load t.bytes.length x w ∧ w = (t.bytes.drop x.1).take (x.2 - x.1) ∧ CString m x.1 w := by
  obtain ⟨ts, hts⟩ := lexes_exists_unique t.bytes
  have hm := t.load_isString
  have hat : At t.load t.bytes.length 0 ts := by
    refine ⟨Nat.zero_le _, ?_⟩
    rw [t.text_load, hts]
  have hparse : Settles (parsecmd t) (Outcome Stop.IsPanic fun y =>
      ∃ d, Cmd.Rel (WordAt t.load t.bytes.length) y.1 d ∧ y.2 = nulterminate t.load y.1) := by
    refine (parse_sound hm .line ts 0 hat).andThen (k := fun x _ => finish t x) ?_
    rintro x ⟨us, vs, d, -, -, hrel, -⟩
    refine .pure ?_
    unfold finish
    split
    · exact ⟨d, hrel, rfl⟩
    · exact Stop.isPanic _
  refine hparse.mono fun r hr => ⟨?_, ?_⟩
  · rintro rfl
    exact hr rfl
  · rintro c m rfl x hx
    obtain ⟨d, hrel, hmem⟩ := hr
    obtain ⟨w, hw⟩ := hrel.exists_of_mem hx
    refine ⟨w, hw, t.wordAt_eq hw, ?_⟩
    rw [show m = nulterminate t.load c from hmem]
    exact cstring_nulterminate hm hrel hx hw

-- a <b| c&
example : (parsecmd ⟨['a', ' ', '<', 'b', '|', ' ', 'c', '&'].map ch, by decide⟩ 8).map
      (fun x => x.1.map (readString x.2 8)) =
    .ok (.back (.pipe (.redir (.exec [[ch 'a']]) [ch 'b'] O_RDONLY 0) (.exec [[ch 'c']]))) := rfl

end Xv6.Sh
