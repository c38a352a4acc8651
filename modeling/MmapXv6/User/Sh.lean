import Mathlib.Data.List.Basic
import Mathlib.Logic.Function.Iterate
import MmapXv6.Lib.Cstring
import MmapXv6.Lib.Post

/-! The lexer and the parser of sh.c: gettoken and peek on a line, recursive descent over
the rest of the line, and nulterminate. The rest of a line is a list whose end is the NUL, and
a pointer into the line is an offset from its first byte. The parser accepts exactly the lines
of a grammar over tokens. A redirection wraps the node below it while parseexec still fills
that node, so the node is filled through its wrappers. -/
namespace MmapXv6.Sh

open Lib (Byte byte newline Bytes bind_ok Ensures)

def whitespace : List Byte := [byte ' ', byte '\t', byte '\r', newline, ⟨0x0b, by decide⟩]

def symbols : List Byte := [byte '<', byte '|', byte '>', byte '&', byte ';', byte '(', byte ')']

/-- A counted string: its first byte, and the byte after its last. -/
structure Str where
  q : Nat
  eq : Nat
deriving DecidableEq, Repr

def plain (c : Byte) : Bool := c ∉ whitespace ∧ c ∉ symbols

def skip (s : List Byte) : List Byte := s.dropWhile (· ∈ whitespace)

def peek (ps toks : List Byte) : Bool × List Byte :=
  (match skip ps with
    | [] => false
    | c :: _ => c ∈ toks, skip ps)

/-- The switch of gettoken: what it returns, and where the token ends. -/
def scan : List Byte → UInt8 × List Byte
  | [] => (0, [])
  | c :: s =>
    if c ∈ symbols then
      if c = byte '>' ∧ s.head? = some (byte '>') then ('+'.toUInt8, s.tail) else (c, s)
    else ('a'.toUInt8, (c :: s).dropWhile plain)

def gettoken (es : Nat) (ps : List Byte) : UInt8 × Str × List Byte :=
  let s := skip ps
  let (ret, e) := scan s
  (ret, ⟨es - s.length, es - e.length⟩, skip e)

/-! What the tokens of a line are. -/

inductive Token
  | lt
  | gt
  | append
  | bar
  | amp
  | semi
  | lpar
  | rpar
  | word (s : Str)
deriving DecidableEq, Repr

def symbol (c : Byte) : Option Token :=
  if c = byte '<' then some .lt
  else if c = byte '>' then some .gt
  else if c = byte '|' then some .bar
  else if c = byte '&' then some .amp
  else if c = byte ';' then some .semi
  else if c = byte '(' then some .lpar
  else if c = byte ')' then some .rpar
  else none

/-- The tokens in the rest of a line that ends at es. A word is a longest row of plain bytes. -/
def tokens (es : Nat) : List Byte → List Token
  | [] => []
  | c :: s =>
    if c ∈ whitespace then tokens es s
    else match symbol c with
      | none => .word ⟨es - (s.length + 1), es - (s.dropWhile plain).length⟩ ::
          tokens es (s.dropWhile plain)
      | some t =>
        if t = .gt ∧ s.head? = some (byte '>') then .append :: tokens es s.tail
        else t :: tokens es s
termination_by s => s.length
decreasing_by
  · simp
  · exact Nat.lt_succ_of_le (List.dropWhile_suffix _).length_le
  · rw [List.length_tail, List.length_cons]
    omega
  · simp

namespace Token

def code : Token → UInt8
  | lt => '<'.toUInt8
  | gt => '>'.toUInt8
  | append => '+'.toUInt8
  | bar => '|'.toUInt8
  | amp => '&'.toUInt8
  | semi => ';'.toUInt8
  | lpar => '('.toUInt8
  | rpar => ')'.toUInt8
  | word _ => 'a'.toUInt8

def lead : Token → Option Byte
  | lt => byte '<'
  | gt => byte '>'
  | append => byte '>'
  | bar => byte '|'
  | amp => byte '&'
  | semi => byte ';'
  | lpar => byte '('
  | rpar => byte ')'
  | word _ => none

end Token

def leads (toks : List Byte) (ts : List Token) : Bool := ts.head?.any fun t => t.lead.any (· ∈ toks)

section Lexer
variable {es : Nat} {ps toks : List Byte} {t : Token} {ts : List Token}

theorem symbol_none {c : Byte} : symbol c = none ↔ c ∉ symbols := by
  unfold symbol symbols
  split_ifs <;> simp_all

theorem symbol_some {c : Byte} (found : symbol c = some t) :
    c ∈ symbols ∧ t.lead = some c ∧ t.code = c ∧
    (t = .gt ↔ c = byte '>') := by
  unfold symbol at found
  split_ifs at found <;> (cases found; subst_vars; decide)

theorem tokens_skip : tokens es (skip ps) = tokens es ps := by
  induction ps with
  | nil => rfl
  | cons c s ih =>
    by_cases blank : c ∈ whitespace
    · rw [tokens, if_pos blank, ← ih]
      simp [skip, blank]
    · simp [skip, blank]

theorem skip_cases (ps : List Byte) : skip ps = [] ∨ ∃ c s, skip ps = c :: s ∧ c ∉ whitespace := by
  cases rest : skip ps with
  | nil => exact .inl rfl
  | cons c s =>
    have first := List.head?_dropWhile_not (· ∈ whitespace) ps
    rw [← skip, rest] at first
    exact .inr ⟨c, s, rfl, by simpa using first⟩

theorem peek_eq (es : Nat) (sub : toks ⊆ symbols) :
    peek ps toks = (leads toks (tokens es ps), skip ps) := by
  rw [← tokens_skip]
  rcases skip_cases ps with none | ⟨c, s, rest, visible⟩
  · simp [peek, none, tokens, leads]
  · simp only [peek, rest, tokens, if_neg visible]
    cases found : symbol c with
    | none =>
      have other : c ∉ toks := fun mem => symbol_none.mp found (sub mem)
      simp [leads, Token.lead, other]
    | some t =>
      obtain ⟨-, lead, -, gt⟩ := symbol_some found
      dsimp only
      split
      · rename_i twice
        have second : c = byte '>' := gt.mp twice.1
        simp [leads, Token.lead, second]
      · simp [leads, lead]

theorem tokens_eq_nil : tokens es ps = [] ↔ skip ps = [] := by
  rw [← tokens_skip]
  rcases skip_cases ps with rest | ⟨c, s, rest, visible⟩
  · simp [rest, tokens]
  · rw [rest, tokens, if_neg visible]
    refine iff_of_false (fun none => ?_) (List.cons_ne_nil c s)
    split at none
    · cases none
    · split at none <;> cases none

theorem gettoken_nil (none : tokens es ps = []) :
    (gettoken es ps).1 = 0 ∧ tokens es (gettoken es ps).2.2 = [] := by
  simp [gettoken, tokens_eq_nil.mp none, scan, tokens_skip, tokens]

theorem gettoken_cons (more : tokens es ps = t :: ts) :
    ∃ s r, gettoken es ps = (t.code, s, r) ∧ tokens es r = ts ∧ ∀ w, t = .word w → s = w := by
  rw [← tokens_skip] at more
  rcases skip_cases ps with rest | ⟨c, s, rest, visible⟩
  · rw [rest, tokens] at more
    cases more
  · rw [rest, tokens, if_neg visible] at more
    unfold gettoken
    rw [rest]
    cases found : symbol c with
    | none =>
      rw [found] at more
      cases more
      have other := symbol_none.mp found
      have first : plain c := by simp [plain, visible, other]
      simp only [scan, if_neg other, List.dropWhile_cons_of_pos first]
      exact ⟨_, _, rfl, tokens_skip, fun w same => by cases same; rfl⟩
    | some u =>
      obtain ⟨listed, lead, code, gt⟩ := symbol_some found
      rw [found] at more
      dsimp only at more
      simp only [scan, if_pos listed, ← gt]
      split at more
      · rename_i twice
        cases more
        rw [if_pos twice]
        exact ⟨_, _, rfl, tokens_skip, fun w same => by cases same⟩
      · rename_i single
        cases more
        rw [if_neg single, ← code]
        refine ⟨_, _, rfl, tokens_skip, fun w same => ?_⟩
        subst same
        cases lead

theorem code_eq_word : t.code = 'a'.toUInt8 ↔ ∃ w, t = .word w := by
  cases t with
  | word w => exact iff_of_true rfl ⟨w, rfl⟩
  | _ => exact iff_of_false (by decide) (by simp)

theorem code_ne_zero : t.code ≠ 0 := by
  cases t with
  | word w => exact (by decide : 'a'.toUInt8 ≠ 0)
  | _ => decide

theorem symbol_lead {c : Byte} (first : t.lead = some c) :
    symbol c = some t ∨ symbol c = some .gt := by
  cases t with
  | word w => cases first
  | _ => cases first; decide

theorem peek_one {c : Byte} (es : Nat) (ps : List Byte) (named : symbol c = some t)
    (single : t ≠ .gt) :
    (∃ x y r, peek ps [c] = (true, skip ps) ∧ gettoken es (skip ps) = (x, y, r) ∧
      tokens es ps = t :: tokens es r) ∨
    peek ps [c] = (false, skip ps) ∧ leads [c] (tokens es ps) = false := by
  rw [peek_eq es (by simpa using (symbol_some named).1)]
  cases found : leads [c] (tokens es ps) with
  | false => exact .inr ⟨rfl, rfl⟩
  | true =>
    cases rest : tokens es ps with
    | nil =>
      rw [rest] at found
      cases found
    | cons u us =>
      obtain ⟨s, r, called, same, -⟩ := gettoken_cons (tokens_skip.trans rest)
      have first : u.lead = some c := by simpa [rest, leads, Option.any_eq_true] using found
      have known : u = t := by
        rcases symbol_lead first with same | same
        · exact Option.some.inj (same.symm.trans named)
        · exact absurd (Option.some.inj (named.symm.trans same)) single
      exact .inl ⟨_, _, r, rfl, called, by rw [known, same]⟩

theorem tokens_length_le : (tokens es ps).length ≤ ps.length := by
  fun_induction tokens es ps with
  | case1 => exact Nat.le_refl 0
  | case2 c s blank ih => exact Nat.le_succ_of_le ih
  | case3 c s visible none ih =>
    have shorter := (List.dropWhile_suffix plain (l := s)).length_le
    simp only [List.length_cons]
    omega
  | case4 c s visible t found twice ih =>
    simp only [List.length_cons, List.length_tail] at ih ⊢
    omega
  | case5 c s visible t found single ih => exact Nat.succ_le_succ ih

end Lexer

def IsWord (line : List Byte) (w : Str) : Prop :=
  ∃ front text back, line = front ++ text ++ back ∧ w = ⟨front.length, front.length + text.length⟩ ∧
    (∀ c ∈ text, plain c) ∧ ∀ c ∈ back.head?, ¬ plain c

theorem isWord_of_mem {line s pre : List Byte} {w : Str} (whole : line = pre ++ s)
    (mem : .word w ∈ tokens line.length s) : IsWord line w := by
  fun_induction tokens line.length s generalizing pre with
  | case1 => cases mem
  | case2 c s blank ih => exact ih (show line = (pre ++ [c]) ++ s by simp [whole]) mem
  | case3 c s visible none ih =>
    have parts : line = pre ++ (c :: s.takeWhile plain) ++ s.dropWhile plain := by
      rw [whole, List.append_assoc, List.cons_append, List.takeWhile_append_dropWhile]
    rcases List.mem_cons.mp mem with same | mem
    · refine ⟨pre, c :: s.takeWhile plain, s.dropWhile plain, parts, ?_, ?_, ?_⟩
      · have count := congrArg List.length parts
        have rest := congrArg List.length whole
        simp only [List.length_append, List.length_cons] at count rest
        cases same
        simp only [List.length_cons, Str.mk.injEq]
        omega
      · intro d inside
        rcases List.mem_cons.mp inside with rfl | inside
        · simp [plain, visible, symbol_none.mp none]
        · exact List.all_eq_true.mp List.all_takeWhile d inside
      · intro d first
        have stops := List.head?_dropWhile_not plain s
        rw [Option.mem_def.mp first] at stops
        simp [stops]
    · exact ih parts mem
  | case4 c s visible t found twice ih =>
    obtain ⟨d, u, rfl⟩ : ∃ d u, s = d :: u := by
      cases s with
      | nil => cases twice.2
      | cons d u => exact ⟨d, u, rfl⟩
    exact ih (show line = (pre ++ [c, d]) ++ u by simp [whole]) (by simpa using mem)
  | case5 c s visible t found single ih =>
    rcases List.mem_cons.mp mem with same | mem
    · subst same
      cases (symbol_some found).2.1
    · exact ih (show line = (pre ++ [c]) ++ s by simp [whole]) mem

inductive Cmd
  | exec (argv : List Str)
  | redir (cmd : Cmd) (file : Str) (mode fd : Nat)
  | pipe (left right : Cmd)
  | list (left right : Cmd)
  | back (cmd : Cmd)
deriving DecidableEq, Repr

inductive Stop
  | leftovers (s : List Byte)
  | missingFile
  | parseblock
  | missingRpar
  | syntaxError
  | tooManyArgs
  /-- The fuel of the model is spent. -/
  | spent
deriving DecidableEq, Repr

def MAXARGS : Nat := 10
def O_RDONLY : Nat := 0
def O_WRONLY : Nat := 1
def O_CREATE : Nat := 0x200

/-- The switch of parseredirs. -/
def redirect (tok : UInt8) (cmd : Cmd) (file : Str) : Cmd :=
  if tok = '<'.toUInt8 then .redir cmd file O_RDONLY 0
  else if tok = '>'.toUInt8 then .redir cmd file (O_WRONLY ||| O_CREATE) 1
  else if tok = '+'.toUInt8 then .redir cmd file (O_WRONLY ||| O_CREATE) 1
  else cmd

def parseredirs (es : Nat) : Nat → Cmd → List Byte → Except Stop (Cmd × List Byte)
  | 0, _, _ => .error .spent
  | fuel + 1, cmd, ps =>
    let (found, ps) := peek ps [byte '<', byte '>']
    if found then
      let (tok, _, ps) := gettoken es ps
      let (tok', file, ps) := gettoken es ps
      if tok' ≠ 'a'.toUInt8 then .error .missingFile
      else parseredirs es fuel (redirect tok cmd file) ps
    else .ok (cmd, ps)

/-- A store to the execcmd below the redirections that are wrapped around it. -/
def Cmd.push (arg : Str) : Cmd → Cmd
  | .exec argv => .exec (argv ++ [arg])
  | .redir cmd file mode fd => .redir (cmd.push arg) file mode fd
  | cmd => cmd

def parseargs (es : Nat) : Nat → Cmd → Nat → List Byte → Except Stop (Cmd × List Byte)
  | 0, _, _, _ => .error .spent
  | fuel + 1, ret, argc, ps =>
    let (stop, ps) := peek ps [byte '|', byte ')', byte '&', byte ';']
    if stop then .ok (ret, ps)
    else
      let (tok, arg, ps) := gettoken es ps
      if tok = 0 then .ok (ret, ps)
      else if tok ≠ 'a'.toUInt8 then .error .syntaxError
      else if argc + 1 ≥ MAXARGS then .error .tooManyArgs
      else do
        let (ret, ps) ← parseredirs es fuel (ret.push arg) ps
        parseargs es fuel ret (argc + 1) ps

def parsebacks (es : Nat) : Nat → Cmd → List Byte → Except Stop (Cmd × List Byte)
  | 0, _, _ => .error .spent
  | fuel + 1, cmd, ps =>
    let (found, ps) := peek ps [byte '&']
    if found then
      let (_, _, ps) := gettoken es ps
      parsebacks es fuel (.back cmd) ps
    else .ok (cmd, ps)

mutual

def parseline (es : Nat) : Nat → List Byte → Except Stop (Cmd × List Byte)
  | 0, _ => .error .spent
  | fuel + 1, ps => do
    let (cmd, ps) ← parsepipe es fuel ps
    let (cmd, ps) ← parsebacks es fuel cmd ps
    let (found, ps) := peek ps [byte ';']
    if found then
      let (_, _, ps) := gettoken es ps
      let (right, ps) ← parseline es fuel ps
      .ok (.list cmd right, ps)
    else .ok (cmd, ps)

def parsepipe (es : Nat) : Nat → List Byte → Except Stop (Cmd × List Byte)
  | 0, _ => .error .spent
  | fuel + 1, ps => do
    let (cmd, ps) ← parseexec es fuel ps
    let (found, ps) := peek ps [byte '|']
    if found then
      let (_, _, ps) := gettoken es ps
      let (right, ps) ← parsepipe es fuel ps
      .ok (.pipe cmd right, ps)
    else .ok (cmd, ps)

def parseexec (es : Nat) : Nat → List Byte → Except Stop (Cmd × List Byte)
  | 0, _ => .error .spent
  | fuel + 1, ps =>
    let (found, ps) := peek ps [byte '(']
    if found then parseblock es fuel ps
    else do
      let (ret, ps) ← parseredirs es fuel (.exec []) ps
      parseargs es fuel ret 0 ps

def parseblock (es : Nat) : Nat → List Byte → Except Stop (Cmd × List Byte)
  | 0, _ => .error .spent
  | fuel + 1, ps =>
    let (found, ps) := peek ps [byte '(']
    if ¬ found then .error .parseblock
    else do
      let (_, _, ps) := gettoken es ps
      let (cmd, ps) ← parseline es fuel ps
      let (found, ps) := peek ps [byte ')']
      if ¬ found then .error .missingRpar
      else
        let (_, _, ps) := gettoken es ps
        parseredirs es fuel cmd ps

end

def nulterminate : Cmd → Bytes → Bytes
  | .exec argv, b => argv.foldl (fun b arg => Function.update b arg.eq 0) b
  | .redir cmd file _ _, b => Function.update (nulterminate cmd b) file.eq 0
  | .pipe left right, b => nulterminate right (nulterminate left b)
  | .list left right, b => nulterminate right (nulterminate left b)
  | .back cmd, b => nulterminate cmd b

def parsecmd (line : List Byte) : Except Stop (Cmd × Bytes) := do
  let (cmd, s) ← parseline line.length (4 * line.length + 4) line
  let (_, s) := peek s []
  if s ≠ [] then .error (.leftovers s)
  else .ok (cmd, nulterminate cmd (Lib.cbytes line))

/-! The grammar. -/

inductive RedirOp
  | lt
  | gt
  | append

def RedirOp.token : RedirOp → Token
  | lt => .lt
  | gt => .gt
  | append => .append

structure Redir where
  op : RedirOp
  file : Str

/-- redir ::= ('<' | '>' | '>>') word -/
def Redir.tokens (r : Redir) : List Token := [r.op.token, .word r.file]

def Redir.wrap (cmd : Cmd) (r : Redir) : Cmd :=
  match r.op with
  | .lt => .redir cmd r.file O_RDONLY 0
  | .gt => .redir cmd r.file (O_WRONLY ||| O_CREATE) 1
  | .append => .redir cmd r.file (O_WRONLY ||| O_CREATE) 1

def argTokens (a : Str × List Redir) : List Token := .word a.1 :: a.2.flatMap Redir.tokens

mutual

/-- line ::= pipe '&'* [';' line] -/
inductive Line : List Token → Cmd → Prop
  | last {ts : List Token} {c : Cmd} (n : Nat) : Pipe ts c →
    Line (ts ++ List.replicate n .amp) (Cmd.back^[n] c)
  | list {ts us : List Token} {c d : Cmd} (n : Nat) : Pipe ts c → Line us d →
      Line (ts ++ List.replicate n .amp ++ .semi :: us) (.list (Cmd.back^[n] c) d)

/-- pipe ::= exec ['|' pipe] -/
inductive Pipe : List Token → Cmd → Prop
  | last {ts : List Token} {c : Cmd} : Exec ts c → Pipe ts c
  | pipe {ts us : List Token} {c d : Cmd} :
      Exec ts c → Pipe us d → Pipe (ts ++ .bar :: us) (.pipe c d)

/-- exec ::= '(' line ')' redir* | redir* (word redir*)*, and at most MAXARGS - 1 words -/
inductive Exec : List Token → Cmd → Prop
  | block {ts : List Token} {c : Cmd} (rs : List Redir) : Line ts c →
      Exec (.lpar :: ts ++ .rpar :: rs.flatMap Redir.tokens) (rs.foldl Redir.wrap c)
  | words (rs : List Redir) (args : List (Str × List Redir)) : args.length ≤ MAXARGS - 1 →
      Exec (rs.flatMap Redir.tokens ++ args.flatMap argTokens)
        ((rs ++ args.flatMap Prod.snd).foldl Redir.wrap (.exec (args.map Prod.fst)))

end

def Ends (toks : List Byte) (ts : List Token) : Prop := ts = [] ∨ leads toks ts

section Loops
variable {es n argc : Nat} {cmd : Cmd} {ps : List Byte} {ts us : List Token}

theorem leads_iff {toks : List Byte} : leads toks ts = true ↔ ∃ t us c, ts = t :: us ∧
    t.lead = some c ∧ c ∈ toks := by
  cases ts with
  | nil => simp [leads]
  | cons t ts => simp [leads, Option.any_eq_true]

theorem Ends.mono {toks more : List Byte} (h : Ends toks ts) (sub : ∀ c ∈ toks, c ∈ more) :
    Ends more ts := by
  refine h.imp id fun first => ?_
  obtain ⟨t, us, c, same, lead, mem⟩ := leads_iff.mp first
  exact leads_iff.mpr ⟨t, us, c, same, lead, sub c mem⟩

theorem Ends.not_leads {toks others : List Byte} (h : Ends toks ts)
    (apart : ∀ c ∈ toks, c ∉ others) : leads others ts = false := by
  rcases h with rfl | h
  · rfl
  · obtain ⟨t, us, c, rfl, lead, mem⟩ := leads_iff.mp h
    simp [leads, lead, apart c mem]

theorem leads_redir {t : Token} :
    leads [byte '<', byte '>'] [t] = true ↔ ∃ op : RedirOp, t = op.token := by
  cases t with
  | lt => exact iff_of_true (by decide) ⟨.lt, rfl⟩
  | gt => exact iff_of_true (by decide) ⟨.gt, rfl⟩
  | append => exact iff_of_true (by decide) ⟨.append, rfl⟩
  | word w => exact iff_of_false Bool.false_ne_true fun ⟨op, same⟩ => by cases op <;> cases same
  | _ => exact iff_of_false (by decide) fun ⟨op, same⟩ => by cases op <;> cases same

theorem Redir.leads_tokens (r : Redir) : leads [byte '<', byte '>'] (r.tokens ++ us) = true :=
  leads_redir.mpr ⟨r.op, rfl⟩

theorem Redir.tokens_inj {q r : Redir} (same : q.tokens ++ ts = r.tokens ++ us) :
    q = r ∧ ts = us := by
  obtain ⟨op, file⟩ := q
  obtain ⟨op', file'⟩ := r
  cases op <;> cases op' <;> simp_all [Redir.tokens, RedirOp.token]

theorem redirect_code (op : RedirOp) (cmd : Cmd) (file : Str) :
    redirect op.token.code cmd file = Redir.wrap cmd ⟨op, file⟩ := by
  cases op <;> rfl

theorem parseredirs_step (es n : Nat) (cmd : Cmd) (ps : List Byte) :
    (∃ r : Redir, ∃ rest, tokens es ps = r.tokens ++ tokens es rest ∧
      parseredirs es (n + 1) cmd ps = parseredirs es n (r.wrap cmd) rest) ∨
    leads [byte '<', byte '>'] (tokens es ps) = false ∧
      parseredirs es (n + 1) cmd ps = .ok (cmd, skip ps) ∨
    leads [byte '<', byte '>'] (tokens es ps) = true ∧
      (∀ (r : Redir) us, tokens es ps ≠ r.tokens ++ us) ∧
      parseredirs es (n + 1) cmd ps = .error .missingFile := by
  rw [parseredirs, peek_eq es (by decide)]
  dsimp only
  split
  · rename_i found
    cases first : tokens es ps with
    | nil =>
      rw [first] at found
      cases found
    | cons t us =>
      rw [first] at found
      obtain ⟨op, rfl⟩ := leads_redir.mp found
      obtain ⟨_, s, called, rfl, -⟩ := gettoken_cons (tokens_skip.trans first)
      rw [called]
      dsimp only
      cases second : tokens es s with
      | nil =>
        have zero := (gettoken_nil second).1
        rw [zero, if_pos (by decide)]
        exact .inr (.inr ⟨found, fun r us same => by simp [Redir.tokens] at same, rfl⟩)
      | cons u vs =>
        obtain ⟨file, rest, again, rfl, place⟩ := gettoken_cons second
        rw [again]
        dsimp only
        split
        · rename_i other
          refine .inr (.inr ⟨found, fun r us same => ?_, rfl⟩)
          simp only [Redir.tokens, List.cons_append, List.nil_append, List.cons.injEq] at same
          exact other (code_eq_word.mpr ⟨_, same.2.1⟩)
        · rename_i word
          obtain ⟨w, rfl⟩ := code_eq_word.mp (not_not.mp word)
          obtain rfl := place w rfl
          exact .inl ⟨⟨op, file⟩, rest, rfl, by rw [redirect_code]⟩
  · rename_i none
    exact .inr (.inl ⟨by simpa using none, rfl⟩)

theorem parseredirs_reads (fuel : (tokens es ps).length < n) :
    Ensures (parseredirs es n cmd ps) (fun r => ∃ rs : List Redir,
      tokens es ps = rs.flatMap Redir.tokens ++ tokens es r.2 ∧ r.1 = rs.foldl Redir.wrap cmd)
        (· ≠ .spent) := by
  induction n generalizing cmd ps with
  | zero => cases fuel
  | succ n ih =>
    rcases parseredirs_step es n cmd ps with ⟨r, rest, split, next⟩ | ⟨-, next⟩ | ⟨-, -, next⟩
    · rw [next]
      have count := congrArg List.length split
      simp only [Redir.tokens, List.length_append, List.length_cons, List.length_nil] at count
      refine (ih (by omega)).mono fun x ⟨rs, same, tree⟩ => ⟨r :: rs, ?_, tree⟩
      rw [split, same, List.flatMap_cons, List.append_assoc]
    · rw [next]
      exact ⟨[], tokens_skip.symm, rfl⟩
    · rw [next]
      exact Stop.noConfusion

theorem parseredirs_accepts (cmd : Cmd) (rs : List Redir)
    (split : tokens es ps = rs.flatMap Redir.tokens ++ us)
    (other : leads [byte '<', byte '>'] us = false) (fuel : (tokens es ps).length < n) :
    ∃ rest, parseredirs es n cmd ps = .ok (rs.foldl Redir.wrap cmd, rest) ∧
      tokens es rest = us := by
  induction rs generalizing cmd ps n with
  | nil =>
    obtain ⟨n, rfl⟩ := Nat.exists_eq_succ_of_ne_zero (Nat.ne_zero_of_lt fuel)
    rw [List.flatMap_nil, List.nil_append] at split
    rcases parseredirs_step es n cmd ps with ⟨r, rest, same, -⟩ | ⟨-, next⟩ | ⟨first, -⟩
    · rw [← split, same, r.leads_tokens] at other
      cases other
    · exact ⟨_, next, tokens_skip.trans split⟩
    · rw [split, other] at first
      cases first
  | cons r rs ih =>
    obtain ⟨n, rfl⟩ := Nat.exists_eq_succ_of_ne_zero (Nat.ne_zero_of_lt fuel)
    rw [List.flatMap_cons, List.append_assoc] at split
    rcases parseredirs_step es n cmd ps with ⟨r', rest, same, next⟩ | ⟨none, -⟩ | ⟨-, none, -⟩
    · obtain ⟨rfl, later⟩ := Redir.tokens_inj (same.symm.trans split)
      have count := congrArg List.length same
      simp only [Redir.tokens, List.length_append, List.length_cons, List.length_nil] at count
      rw [next]
      exact ih (r'.wrap cmd) later (by omega)
    · rw [split, r.leads_tokens] at none
      cases none
    · exact absurd split (none r _)

theorem Cmd.push_wrap (cmd : Cmd) (r : Redir) (w : Str) :
    (r.wrap cmd).push w = r.wrap (cmd.push w) := by
  obtain ⟨op, file⟩ := r
  cases op <;> rfl

theorem Cmd.push_foldl (rs : List Redir) (cmd : Cmd) (w : Str) :
    (rs.foldl Redir.wrap cmd).push w = rs.foldl Redir.wrap (cmd.push w) := by
  induction rs generalizing cmd with
  | nil => rfl
  | cons r rs ih => rw [List.foldl_cons, ih, push_wrap, List.foldl_cons]

def Cmd.arg (cmd : Cmd) (a : Str × List Redir) : Cmd := a.2.foldl Redir.wrap (cmd.push a.1)

theorem foldl_arg (rs : List Redir) (args : List (Str × List Redir)) (argv : List Str) :
    args.foldl Cmd.arg (rs.foldl Redir.wrap (.exec argv)) =
      (rs ++ args.flatMap Prod.snd).foldl Redir.wrap (.exec (argv ++ args.map Prod.fst)) := by
  induction args generalizing rs argv with
  | nil => simp
  | cons a args ih =>
    have first : Cmd.arg (rs.foldl Redir.wrap (.exec argv)) a = (rs ++ a.2).foldl Redir.wrap
        (.exec (argv ++ [a.1])) := by
      rw [Cmd.arg, Cmd.push_foldl, List.foldl_append, Cmd.push]
    rw [List.foldl_cons, first, ih]
    simp

abbrev stops : List Byte := [byte '|', byte ')', byte '&', byte ';']

theorem parseargs_step (es n argc : Nat) (ret : Cmd) (ps : List Byte) :
    (∃ w rest, tokens es ps = .word w :: tokens es rest ∧
      parseargs es (n + 1) ret argc ps = if argc + 1 ≥ MAXARGS then .error .tooManyArgs else
        parseredirs es n (ret.push w) rest >>= fun x => parseargs es n x.1 (argc + 1) x.2) ∨
    Ends stops (tokens es ps) ∧
      (∃ rest, parseargs es (n + 1) ret argc ps = .ok (ret, rest) ∧ tokens es rest = tokens es ps) ∨
    ¬ Ends stops (tokens es ps) ∧ (∀ w us, tokens es ps ≠ .word w :: us) ∧
      parseargs es (n + 1) ret argc ps = .error .syntaxError := by
  rw [parseargs, peek_eq es (by decide)]
  dsimp only
  split
  · rename_i found
    exact .inr (.inl ⟨.inr found, _, rfl, tokens_skip⟩)
  · rename_i none
    cases first : tokens es ps with
    | nil =>
      obtain ⟨zero, same⟩ := gettoken_nil (tokens_skip.trans first)
      rw [if_pos zero]
      exact .inr (.inl ⟨.inl rfl, _, rfl, same⟩)
    | cons t us =>
      rw [first] at none
      obtain ⟨arg, rest, called, rfl, place⟩ := gettoken_cons (tokens_skip.trans first)
      rw [called]
      dsimp only
      rw [if_neg code_ne_zero]
      split
      · rename_i other
        refine .inr (.inr ⟨fun ends => ends.elim (by simp) none, fun w us same => other ?_, rfl⟩)
        cases same
        rfl
      · rename_i word
        obtain ⟨w, rfl⟩ := code_eq_word.mp (not_not.mp word)
        obtain rfl := place w rfl
        exact .inl ⟨arg, rest, rfl, rfl⟩

theorem parseargs_reads {ret : Cmd} (fuel : (tokens es ps).length < n) :
    Ensures (parseargs es n ret argc ps) (fun r => ∃ args : List (Str × List Redir),
      tokens es ps = args.flatMap argTokens ++ tokens es r.2 ∧ r.1 = args.foldl Cmd.arg ret ∧
      (args = [] ∨ argc + args.length < MAXARGS)) (· ≠ .spent) := by
  induction n generalizing ret argc ps with
  | zero => cases fuel
  | succ n ih =>
    rcases parseargs_step es n argc ret ps with ⟨w, rest, split, next⟩ | ⟨-, rest, next, same⟩
      | ⟨-, -, next⟩
    · rw [next]
      have count := congrArg List.length split
      simp only [List.length_cons] at count
      split
      · exact Stop.noConfusion
      · rename_i room
        refine (parseredirs_reads (by omega)).bind fun x ⟨rs, here, tree⟩ => ?_
        have fewer := congrArg List.length here
        simp only [List.length_append] at fewer
        refine (ih (by omega)).mono fun y ⟨args, later, result, limit⟩ =>
          ⟨(w, rs) :: args, ?_, ?_, .inr ?_⟩
        · rw [split, here, later, List.flatMap_cons, argTokens, List.cons_append, List.cons_append,
            List.append_assoc]
        · rw [result, tree]
          rfl
        · rcases limit with rfl | limit
          · simpa using room
          · simp only [List.length_cons]
            omega
    · rw [next]
      exact ⟨[], same.symm, rfl, .inl rfl⟩
    · rw [next]
      exact Stop.noConfusion

theorem parseargs_accepts (ret : Cmd) (argc : Nat) (args : List (Str × List Redir))
    (split : tokens es ps = args.flatMap argTokens ++ us) (ends : Ends stops us)
    (limit : args = [] ∨ argc + args.length < MAXARGS) (fuel : (tokens es ps).length < n) :
    ∃ rest, parseargs es n ret argc ps = .ok (args.foldl Cmd.arg ret, rest) ∧
      tokens es rest = us := by
  induction args generalizing ret argc ps n with
  | nil =>
    obtain ⟨n, rfl⟩ := Nat.exists_eq_succ_of_ne_zero (Nat.ne_zero_of_lt fuel)
    rw [List.flatMap_nil, List.nil_append] at split
    rcases parseargs_step es n argc ret ps with ⟨w, rest, same, -⟩ |
        ⟨-, rest, next, same⟩ | ⟨other, -⟩
    · rw [← split, same] at ends
      rcases ends with ends | ends
      · cases ends
      · cases ends
    · exact ⟨rest, next, same.trans split⟩
    · exact absurd ends (split ▸ other)
  | cons a args ih =>
    obtain ⟨n, rfl⟩ := Nat.exists_eq_succ_of_ne_zero (Nat.ne_zero_of_lt fuel)
    rw [List.flatMap_cons, argTokens, List.cons_append, List.cons_append,
      List.append_assoc] at split
    rcases parseargs_step es n argc ret ps with ⟨w, rest, same, next⟩ | ⟨ends, -⟩ | ⟨-, none, -⟩
    · obtain ⟨place, later⟩ := List.cons.inj (same.symm.trans split)
      cases place
      have count := congrArg List.length same
      simp only [List.length_cons] at count
      have follow : leads [byte '<', byte '>'] (args.flatMap argTokens ++ us) = false := by
        cases args with
        | nil => exact ends.not_leads (by decide +kernel)
        | cons b args => rfl
      have room : ¬ argc + 1 ≥ MAXARGS := by
        simp only [List.length_cons, reduceCtorEq, false_or] at limit
        omega
      obtain ⟨rest', redirs, same'⟩ :=
        parseredirs_accepts (n := n) (ret.push a.1) a.2 later follow (by omega)
      have fewer := congrArg List.length later
      rw [same'.symm, List.length_append] at fewer
      rw [next, if_neg room, redirs]
      exact ih _ _ same' (by
        rcases args with _ | ⟨b, args⟩
        · exact .inl rfl
        · simp only [List.length_cons, reduceCtorEq, false_or] at limit ⊢
          omega) (by dsimp only; omega)
    · rw [split] at ends
      rcases ends with ends | ends
      · cases ends
      · cases ends
    · exact absurd split (none a.1 _)

theorem parsebacks_reads (fuel : (tokens es ps).length < n) :
    Ensures (parsebacks es n cmd ps)
      (fun r => ∃ k, tokens es ps = List.replicate k .amp ++ tokens es r.2 ∧ r.1 = Cmd.back^[k] cmd)
      (· ≠ .spent) := by
  induction n generalizing cmd ps with
  | zero => cases fuel
  | succ n ih =>
    rw [parsebacks]
    rcases peek_one es ps (c := byte '&') rfl (by decide) with ⟨_, _, rest, seen, called, split⟩
      | ⟨seen, -⟩
    · simp only [seen, called, if_true]
      rw [split, List.length_cons] at fuel
      refine (ih (by omega)).mono fun r ⟨k, same, tree⟩ => ⟨k + 1, ?_, tree⟩
      rw [split, same]
      rfl
    · rw [seen]
      exact ⟨0, tokens_skip.symm, rfl⟩

theorem parsebacks_accepts (cmd : Cmd) (k : Nat)
    (split : tokens es ps = List.replicate k .amp ++ us)
    (other : leads [byte '&'] us = false) (fuel : (tokens es ps).length < n) :
    ∃ rest, parsebacks es n cmd ps = .ok (Cmd.back^[k] cmd, rest) ∧ tokens es rest = us := by
  induction k generalizing cmd ps n with
  | zero =>
    obtain ⟨n, rfl⟩ := Nat.exists_eq_succ_of_ne_zero (Nat.ne_zero_of_lt fuel)
    rw [List.replicate_zero, List.nil_append] at split
    rw [Nat.succ_eq_add_one, parsebacks]
    rcases peek_one es ps (c := byte '&') rfl (by decide) with ⟨_, _, rest, -, -, same⟩ | ⟨seen, -⟩
    · rw [← split, same] at other
      cases other
    · rw [seen]
      exact ⟨_, rfl, tokens_skip.trans split⟩
  | succ k ih =>
    obtain ⟨n, rfl⟩ := Nat.exists_eq_succ_of_ne_zero (Nat.ne_zero_of_lt fuel)
    rw [List.replicate_succ, List.cons_append] at split
    rw [Nat.succ_eq_add_one, parsebacks]
    rcases peek_one es ps (c := byte '&') rfl (by decide) with ⟨_, _, rest, seen, called, same⟩
      | ⟨-, none⟩
    · simp only [seen, called, if_true]
      have later := (List.cons.inj (same.symm.trans split)).2
      rw [same, List.length_cons] at fuel
      exact ih _ later (by omega)
    · rw [split] at none
      cases none

end Loops

section Reads
variable {es n : Nat} {ps : List Byte}

def Reads (es : Nat) (G : List Token → Cmd → Prop) (ps : List Byte)
    (x : Except Stop (Cmd × List Byte)) : Prop :=
  Ensures x (fun r => ∃ ts, tokens es ps = ts ++ tokens es r.2 ∧ G ts r.1) (· ≠ .spent)

theorem parsepipe_reads
    (exec : ∀ ps, 4 * (tokens es ps).length + 2 ≤ n → Reads es Exec ps (parseexec es n ps))
    (pipe : ∀ ps, 4 * (tokens es ps).length + 3 ≤ n → Reads es Pipe ps (parsepipe es n ps))
    (fuel : 4 * (tokens es ps).length + 3 ≤ n + 1) :
    Reads es Pipe ps (parsepipe es (n + 1) ps) := by
  rw [parsepipe]
  refine (exec ps (by omega)).bind fun ⟨c, r⟩ ⟨ts, split, left⟩ => ?_
  dsimp only at split ⊢
  rcases peek_one es r (c := byte '|') rfl (by decide) with
      ⟨_, _, rest, seen, called, same⟩ | ⟨seen, -⟩
  · have count := congrArg List.length split
    simp only [same, List.length_append, List.length_cons] at count
    simp only [seen, called, if_true]
    refine (pipe rest (by omega)).bind fun ⟨d, s⟩ ⟨us, later, right⟩ => ?_
    refine ⟨ts ++ .bar :: us, ?_, .pipe left right⟩
    rw [split, same, later, List.append_assoc, List.cons_append]
  · rw [seen]
    exact ⟨ts, by rw [split, tokens_skip], .last left⟩

theorem parseline_reads
    (pipe : ∀ ps, 4 * (tokens es ps).length + 3 ≤ n → Reads es Pipe ps (parsepipe es n ps))
    (line : ∀ ps, 4 * (tokens es ps).length + 4 ≤ n → Reads es Line ps (parseline es n ps))
    (fuel : 4 * (tokens es ps).length + 4 ≤ n + 1) :
    Reads es Line ps (parseline es (n + 1) ps) := by
  rw [parseline]
  refine (pipe ps (by omega)).bind fun ⟨c, r⟩ ⟨ts, split, left⟩ => ?_
  have fewer := congrArg List.length split
  rw [List.length_append] at fewer
  dsimp only at split fewer ⊢
  refine (parsebacks_reads (by omega)).bind fun ⟨b, q⟩ ⟨k, more, tree⟩ => ?_
  dsimp only at more tree ⊢
  subst tree
  rcases peek_one es q (c := byte ';') rfl (by decide) with
      ⟨_, _, rest, seen, called, same⟩ | ⟨seen, -⟩
  · have count := congrArg List.length more
    simp only [same, List.length_append, List.length_cons] at count
    simp only [seen, called, if_true]
    refine (line rest (by omega)).bind fun ⟨d, s⟩ ⟨us, later, right⟩ => ?_
    refine ⟨ts ++ List.replicate k .amp ++ .semi :: us, ?_, .list k left right⟩
    rw [split, more, same, later, List.append_assoc, List.append_assoc, List.cons_append]
  · rw [seen]
    exact ⟨ts ++ List.replicate k .amp, by rw [split, more, tokens_skip, List.append_assoc],
      .last k left⟩

theorem parseblock_reads
    (line : ∀ ps, 4 * (tokens es ps).length + 4 ≤ n → Reads es Line ps (parseline es n ps))
    (fuel : 4 * (tokens es ps).length + 1 ≤ n + 1) :
    Reads es Exec ps (parseblock es (n + 1) ps) := by
  rw [parseblock]
  rcases peek_one es ps (c := byte '(') rfl (by decide) with ⟨_, _, rest, seen, called, split⟩
    | ⟨seen, -⟩
  · simp only [seen, called, not_true_eq_false, if_false]
    rw [split, List.length_cons] at fuel
    refine (line rest (by omega)).bind fun ⟨c, r⟩ ⟨ts, later, body⟩ => ?_
    dsimp only at later ⊢
    rcases peek_one es r (c := byte ')') rfl (by decide) with ⟨_, _, rest', seen, called, same⟩
      | ⟨seen, -⟩
    · simp only [seen, called, not_true_eq_false, if_false]
      have count := congrArg List.length later
      simp only [same, List.length_append, List.length_cons] at count
      refine (parseredirs_reads (by omega)).mono fun x ⟨rs, last, tree⟩ => ?_
      refine ⟨.lpar :: ts ++ .rpar :: rs.flatMap Redir.tokens, ?_, tree ▸ .block rs body⟩
      simp only [split, later, same, last, List.cons_append, List.append_assoc]
    · rw [seen]
      exact Stop.noConfusion
  · rw [seen]
    exact Stop.noConfusion

theorem parseexec_reads
    (block : ∀ ps, 4 * (tokens es ps).length + 1 ≤ n → Reads es Exec ps (parseblock es n ps))
    (fuel : 4 * (tokens es ps).length + 2 ≤ n + 1) :
    Reads es Exec ps (parseexec es (n + 1) ps) := by
  rw [parseexec, peek_eq es (by decide)]
  dsimp only
  split
  · have body := block (skip ps) (by rw [tokens_skip]; omega)
    rw [Reads, tokens_skip] at body
    exact body
  · refine (parseredirs_reads (by rw [tokens_skip]; omega)).bind fun ⟨c, r⟩ ⟨rs, split, tree⟩ => ?_
    rw [tokens_skip] at split
    have count := congrArg List.length split
    rw [List.length_append] at count
    dsimp only at split count tree ⊢
    refine (parseargs_reads (by omega)).mono fun x ⟨args, later, result, limit⟩ => ?_
    refine ⟨rs.flatMap Redir.tokens ++ args.flatMap argTokens,
      by rw [split, later, List.append_assoc], ?_⟩
    rw [result, tree, foldl_arg, List.nil_append]
    refine .words rs args ?_
    rcases limit with rfl | limit
    · exact Nat.zero_le _
    · omega

theorem parser_reads (es n : Nat) :
    (∀ ps, 4 * (tokens es ps).length + 4 ≤ n → Reads es Line ps (parseline es n ps)) ∧
    (∀ ps, 4 * (tokens es ps).length + 3 ≤ n → Reads es Pipe ps (parsepipe es n ps)) ∧
    (∀ ps, 4 * (tokens es ps).length + 2 ≤ n → Reads es Exec ps (parseexec es n ps)) ∧
    (∀ ps, 4 * (tokens es ps).length + 1 ≤ n → Reads es Exec ps (parseblock es n ps)) := by
  induction n with
  | zero => exact ⟨fun _ fuel => by omega, fun _ fuel => by omega, fun _ fuel => by omega,
    fun _ fuel => by omega⟩
  | succ n ih =>
    obtain ⟨line, pipe, exec, block⟩ := ih
    exact ⟨fun _ => parseline_reads pipe line, fun _ => parsepipe_reads exec pipe,
      fun _ => parseexec_reads block,
      fun _ => parseblock_reads line⟩

end Reads

section Accepts

/-- Every parser accepts its part of the grammar before a token that may follow it. -/
def Accepts (es need : Nat) (parse : Nat → List Byte → Except Stop (Cmd × List Byte))
    (follow : List Byte)
    (ts : List Token) (c : Cmd) : Prop :=
  ∀ n ps us, tokens es ps = ts ++ us → Ends follow us → 4 * (tokens es ps).length + need ≤ n →
    ∃ rest, parse n ps = .ok (c, rest) ∧ tokens es rest = us

variable {es : Nat} {ts us : List Token} {c d : Cmd}

theorem ends_amps (k : Nat) (ends : Ends [byte ')', byte ';'] us) :
    Ends [byte ')', byte '&', byte ';'] (List.replicate k .amp ++ us) := by
  cases k with
  | succ k => exact .inr rfl
  | zero => exact ends.mono (by decide +kernel)

theorem accepts_words (rs : List Redir) (args : List (Str × List Redir))
    (limit : args.length ≤ MAXARGS - 1) :
    Accepts es 2 (parseexec es) stops (rs.flatMap Redir.tokens ++ args.flatMap argTokens)
      ((rs ++ args.flatMap Prod.snd).foldl Redir.wrap (.exec (args.map Prod.fst))) := by
  intro n ps us split ends fuel
  obtain ⟨n, rfl⟩ := Nat.exists_eq_succ_of_ne_zero (show n ≠ 0 by omega)
  have word : leads [byte '<', byte '>'] (args.flatMap argTokens ++ us) = false ∧
      leads [byte '('] (args.flatMap argTokens ++ us) = false := by
    cases args with
    | nil => exact ⟨ends.not_leads (by decide +kernel), ends.not_leads (by decide +kernel)⟩
    | cons a args => exact ⟨rfl, rfl⟩
  have first : leads [byte '('] (tokens es ps) = false := by
    rw [split, List.append_assoc]
    cases rs with
    | nil => exact word.2
    | cons r rs =>
      obtain ⟨op, file⟩ := r
      cases op <;> rfl
  rw [List.append_assoc] at split
  obtain ⟨rest, redirs, later⟩ := parseredirs_accepts (n := n) (.exec []) rs
    (tokens_skip.trans split) word.1 (by rw [tokens_skip]; omega)
  have count := congrArg List.length split
  rw [← later, List.length_append] at count
  obtain ⟨rest', words, same⟩ := parseargs_accepts (n := n) (rs.foldl Redir.wrap (.exec [])) 0 args
    later ends (.inr (by simp only [MAXARGS] at limit ⊢; omega)) (by omega)
  refine ⟨rest', ?_, same⟩
  rw [Nat.succ_eq_add_one, parseexec, peek_eq es (by decide), first]
  simp only [Bool.false_eq_true, if_false, redirs]
  rw [foldl_arg, List.nil_append] at words
  exact words

theorem accepts_block (rs : List Redir) (line : Accepts es 4 (parseline es) [byte ')'] ts c) :
    Accepts es 2 (parseexec es) stops (.lpar :: ts ++ .rpar :: rs.flatMap Redir.tokens)
      (rs.foldl Redir.wrap c) := by
  intro n ps us split ends fuel
  obtain ⟨n, rfl⟩ : ∃ k, n = k + 1 + 1 := ⟨n - 2, by omega⟩
  simp only [List.cons_append, List.append_assoc] at split
  have enter : parseexec es (n + 1 + 1) ps = parseblock es (n + 1) (skip ps) := by
    rw [parseexec, peek_eq es (by decide), split]
    rfl
  rw [← tokens_skip] at split fuel
  rw [enter, parseblock]
  rcases peek_one es (skip ps) (c := byte '(') rfl (by decide) with ⟨_, _, rest, seen, called, same⟩
    | ⟨-, none⟩
  · have body := (List.cons.inj (same.symm.trans split)).2
    rw [same, List.length_cons] at fuel
    obtain ⟨rest', parsed, later⟩ := line n rest _ body (.inr rfl) (by omega)
    have count := congrArg List.length body
    rw [← later, List.length_append] at count
    rcases peek_one es rest' (c := byte ')') rfl
        (by decide) with ⟨_, _, last, seen', called', same'⟩ | ⟨-, none⟩
    · have redirs := (List.cons.inj (same'.symm.trans later)).2
      rw [same', List.length_cons] at count
      have follow : leads [byte '<', byte '>'] us = false := ends.not_leads (by decide +kernel)
      obtain ⟨rest'', wrapped, finally_⟩ :=
        parseredirs_accepts (n := n) c rs redirs follow (by omega)
      refine ⟨rest'', ?_, finally_⟩
      simp only [seen, called, parsed, Lib.ok_bind, seen', called', not_true_eq_false, if_false]
      exact wrapped
    · rw [later] at none
      cases none
  · rw [split] at none
    cases none

theorem accepts_backs (k : Nat) (pipe : Accepts es 3 (parsepipe es) [byte ')', byte '&', byte ';']
    ts c) {n : Nat}
    {ps : List Byte} (split : tokens es ps = ts ++ (List.replicate k .amp ++ us))
      (ends : Ends [byte ')', byte ';'] us)
    (fuel : 4 * (tokens es ps).length + 3 ≤ n) :
    ∃ r rest, parsepipe es n ps = .ok (c, r) ∧ parsebacks es n c r = .ok (Cmd.back^[k] c, rest) ∧
      tokens es rest = us := by
  obtain ⟨r, parsed, later⟩ := pipe n ps _ split (ends_amps k ends) fuel
  have count := congrArg List.length split
  rw [← later, List.length_append] at count
  obtain ⟨rest, backs, same⟩ :=
    parsebacks_accepts (n := n) c k later (ends.not_leads (by decide +kernel))
      (by omega)
  exact ⟨r, rest, parsed, backs, same⟩

theorem accepts_last (k : Nat)
    (pipe : Accepts es 3 (parsepipe es) [byte ')', byte '&', byte ';'] ts c) :
    Accepts es 4 (parseline es) [byte ')'] (ts ++ List.replicate k .amp) (Cmd.back^[k] c) := by
  intro n ps us split ends fuel
  obtain ⟨n, rfl⟩ := Nat.exists_eq_succ_of_ne_zero (show n ≠ 0 by omega)
  rw [List.append_assoc] at split
  have broad : Ends [byte ')', byte ';'] us := ends.mono (by decide +kernel)
  obtain ⟨r, rest, parsed, backs, same⟩ := accepts_backs k pipe split broad (n := n) (by omega)
  rw [Nat.succ_eq_add_one, parseline, parsed]
  simp only [Lib.ok_bind, backs]
  rcases peek_one es rest (c := byte ';') rfl (by decide) with ⟨_, _, q, -, -, other⟩ | ⟨seen, -⟩
  · have none : leads [byte ';'] us = false := ends.not_leads (by decide +kernel)
    rw [← same, other] at none
    cases none
  · rw [seen]
    exact ⟨_, rfl, tokens_skip.trans same⟩

theorem accepts_list (k : Nat)
    (pipe : Accepts es 3 (parsepipe es) [byte ')', byte '&', byte ';'] ts c)
    (line : Accepts es 4 (parseline es) [byte ')'] us d) :
    Accepts es 4 (parseline es) [byte ')'] (ts ++ List.replicate k .amp ++ .semi :: us)
      (.list (Cmd.back^[k] c) d) := by
  intro n ps vs split ends fuel
  obtain ⟨n, rfl⟩ := Nat.exists_eq_succ_of_ne_zero (show n ≠ 0 by omega)
  rw [List.append_assoc, List.append_assoc, List.cons_append] at split
  obtain ⟨r, rest, parsed, backs, same⟩ := accepts_backs k pipe split (.inr rfl) (n := n) (by omega)
  have count := congrArg List.length split
  simp only [← same, List.length_append] at count
  rw [Nat.succ_eq_add_one, parseline, parsed]
  simp only [Lib.ok_bind, backs]
  rcases peek_one es rest (c := byte ';') rfl (by decide) with ⟨_, _, q, seen, called, found⟩
    | ⟨-, none⟩
  · rw [found, List.length_cons] at count
    obtain ⟨last, right, finally_⟩ :=
      line n q vs (List.cons.inj (found.symm.trans same)).2 ends (by omega)
    refine ⟨last, ?_, finally_⟩
    simp only [seen, called, if_true, right, Lib.ok_bind]
  · rw [same] at none
    cases none

theorem accepts_pipe (exec : Accepts es 2 (parseexec es) stops ts c)
    (pipe : Accepts es 3 (parsepipe es) [byte ')', byte '&', byte ';'] us d) :
    Accepts es 3 (parsepipe es) [byte ')', byte '&', byte ';'] (ts ++ .bar :: us) (.pipe c d) := by
  intro n ps vs split ends fuel
  obtain ⟨n, rfl⟩ := Nat.exists_eq_succ_of_ne_zero (show n ≠ 0 by omega)
  rw [List.append_assoc, List.cons_append] at split
  obtain ⟨r, parsed, same⟩ := exec n ps _ split (.inr rfl) (by omega)
  have count := congrArg List.length split
  rw [← same, List.length_append] at count
  rw [Nat.succ_eq_add_one, parsepipe, parsed]
  simp only [Lib.ok_bind]
  rcases peek_one es r (c := byte '|') rfl (by decide) with
      ⟨_, _, q, seen, called, found⟩ | ⟨-, none⟩
  · rw [found, List.length_cons] at count
    obtain ⟨last, right, finally_⟩ :=
      pipe n q vs (List.cons.inj (found.symm.trans same)).2 ends (by omega)
    refine ⟨last, ?_, finally_⟩
    simp only [seen, called, if_true, right, Lib.ok_bind]
  · rw [same] at none
    cases none

theorem accepts_exec (exec : Accepts es 2 (parseexec es) stops ts c) :
    Accepts es 3 (parsepipe es) [byte ')', byte '&', byte ';'] ts c := by
  intro n ps us split ends fuel
  obtain ⟨n, rfl⟩ := Nat.exists_eq_succ_of_ne_zero (show n ≠ 0 by omega)
  have broad : Ends stops us := ends.mono (by decide +kernel)
  obtain ⟨r, parsed, same⟩ := exec n ps us split broad (by omega)
  rw [Nat.succ_eq_add_one, parsepipe, parsed]
  simp only [Lib.ok_bind]
  rcases peek_one es r (c := byte '|') rfl (by decide) with ⟨_, _, q, -, -, other⟩ | ⟨seen, -⟩
  · have none : leads [byte '|'] us = false := ends.not_leads (by decide +kernel)
    rw [← same, other] at none
    cases none
  · rw [seen]
    exact ⟨_, rfl, tokens_skip.trans same⟩

end Accepts

mutual

theorem Line.accepts (es : Nat) {ts : List Token} {c : Cmd} :
    Line ts c → Accepts es 4 (parseline es) [byte ')'] ts c
  | .last k pipe => accepts_last k (pipe.accepts es)
  | .list k pipe line => accepts_list k (pipe.accepts es) (line.accepts es)

theorem Pipe.accepts (es : Nat) {ts : List Token} {c : Cmd} :
    Pipe ts c → Accepts es 3 (parsepipe es) [byte ')', byte '&', byte ';'] ts c
  | .last exec => accepts_exec (exec.accepts es)
  | .pipe exec pipe => accepts_pipe (exec.accepts es) (pipe.accepts es)

theorem Exec.accepts (es : Nat) {ts : List Token} {c : Cmd} :
    Exec ts c → Accepts es 2 (parseexec es) stops ts c
  | .block rs line => accepts_block rs (line.accepts es)
  | .words rs args limit => accepts_words rs args limit

end

def Cmd.strs : Cmd → List Str
  | .exec argv => argv
  | .redir cmd file _ _ => file :: cmd.strs
  | .pipe left right => left.strs ++ right.strs
  | .list left right => left.strs ++ right.strs
  | .back cmd => cmd.strs

section Strings
variable {c : Cmd} {s : Str} {line : List Byte}

theorem nulterminate_get (c : Cmd) (b : Bytes) (p : Nat) :
    nulterminate c b p = if ∃ s ∈ c.strs, s.eq = p then 0 else b p := by
  induction c generalizing b with
  | exec argv =>
    unfold nulterminate Cmd.strs
    induction argv generalizing b with
    | nil => simp
    | cons a argv ih =>
      rw [List.foldl_cons, ih]
      by_cases here : a.eq = p
      · simp [here]
      · simp [here, Function.update_of_ne (Ne.symm here)]
  | redir cmd file mode fd ih =>
    by_cases here : file.eq = p
    · simp [nulterminate, Cmd.strs, here]
    · simp [nulterminate, Cmd.strs, here, Function.update_of_ne (Ne.symm here), ih]
  | pipe left right ihl ihr =>
    simp only [nulterminate, Cmd.strs, ihl, ihr, List.mem_append, or_and_right, exists_or]
    by_cases before : ∃ s ∈ left.strs, s.eq = p <;> by_cases after : ∃ s ∈ right.strs, s.eq = p <;>
      simp [before, after]
  | list left right ihl ihr =>
    simp only [nulterminate, Cmd.strs, ihl, ihr, List.mem_append, or_and_right, exists_or]
    by_cases before : ∃ s ∈ left.strs, s.eq = p <;> by_cases after : ∃ s ∈ right.strs, s.eq = p <;>
      simp [before, after]
  | back cmd ih => exact ih b

theorem strs_back (k : Nat) (c : Cmd) : (Cmd.back^[k] c).strs = c.strs := by
  induction k generalizing c with
  | zero => rfl
  | succ k ih => exact ih (.back c)

theorem mem_strs_wrap (rs : List Redir) (mem : s ∈ (rs.foldl Redir.wrap c).strs) :
    s ∈ c.strs ∨ .word s ∈ rs.flatMap Redir.tokens := by
  induction rs generalizing c with
  | nil => exact .inl mem
  | cons r rs ih =>
    rw [List.flatMap_cons, List.mem_append]
    rcases ih mem with inner | later
    · have wrapped : (r.wrap c).strs = r.file :: c.strs := by
        unfold Redir.wrap
        split <;> rfl
      rw [wrapped] at inner
      rcases List.mem_cons.mp inner with rfl | inner
      · exact .inr (.inl (by simp [Redir.tokens]))
      · exact .inl inner
    · exact .inr (.inr later)

mutual

theorem Line.mem_tokens {ts : List Token} {c : Cmd} : Line ts c → ∀ s ∈ c.strs, .word s ∈ ts
  | .last k pipe, s, mem => by
    rw [strs_back] at mem
    exact List.mem_append_left _ (pipe.mem_tokens s mem)
  | .list k pipe line, s, mem => by
    rw [Cmd.strs, strs_back] at mem
    have left := pipe.mem_tokens s
    have right := line.mem_tokens s
    simp only [List.mem_append, List.mem_cons] at mem ⊢
    exact mem.imp (fun mem => .inl (left mem)) fun mem => .inr (right mem)

theorem Pipe.mem_tokens {ts : List Token} {c : Cmd} : Pipe ts c → ∀ s ∈ c.strs, .word s ∈ ts
  | .last exec, s, mem => exec.mem_tokens s mem
  | .pipe exec pipe, s, mem => by
    have left := exec.mem_tokens s
    have right := pipe.mem_tokens s
    simp only [Cmd.strs, List.mem_append, List.mem_cons] at mem ⊢
    exact mem.imp left fun mem => .inr (right mem)

theorem Exec.mem_tokens {ts : List Token} {c : Cmd} : Exec ts c → ∀ s ∈ c.strs, .word s ∈ ts
  | .block rs line, s, mem => by
    have body := line.mem_tokens s
    rcases mem_strs_wrap rs mem with inner | file
    · simp [body inner]
    · simp [file]
  | .words rs args limit, s, mem => by
    rw [List.mem_append, List.mem_flatMap (l := args)]
    rcases mem_strs_wrap _ mem with inner | file
    · obtain ⟨a, listed, rfl⟩ := List.mem_map.mp inner
      exact .inr ⟨a, listed, List.mem_cons_self⟩
    · rw [List.flatMap_append, List.mem_append, List.flatMap_assoc,
        List.mem_flatMap (l := args)] at file
      exact file.imp id fun ⟨a, listed, inside⟩ => ⟨a, listed, List.mem_cons_of_mem _ inside⟩

end

theorem IsWord.apart {w : Str} (word : IsWord line w) (other : IsWord line s) {i : Nat}
    (from_ : w.q ≤ i)
    (to_ : i < w.eq) : s.eq ≠ i := by
  obtain ⟨front, text, back, whole, rfl, plain_, -⟩ := word
  obtain ⟨front', text', back', whole', rfl, -, ends⟩ := other
  rintro rfl
  simp only at from_ to_
  have inside : (line)[front'.length + text'.length]? = some
      (text[front'.length + text'.length - front.length]) := by
    rw [whole, List.append_assoc, List.getElem?_append_right from_,
      List.getElem?_append_left (by omega),
      List.getElem?_eq_getElem (by omega)]
  have delimiter : (line)[front'.length + text'.length]? = back'.head? := by
    rw [whole', List.getElem?_append_right (by simp), List.length_append, Nat.sub_self,
      List.head?_eq_getElem?]
  exact ends _ (delimiter.symm.trans inside) (plain_ _ (List.getElem_mem _))

theorem IsWord.cstring {b : Bytes} {w : Str} (word : IsWord line w) (nul : b w.eq = 0)
    (kept : ∀ i, w.q ≤ i → i < w.eq → b i = Lib.cbytes line i) :
    Lib.cstring b (line.length + 1) w.q = (line.drop w.q).take (w.eq - w.q) := by
  obtain ⟨front, text, back, rfl, rfl, -, -⟩ := word
  simp only at nul kept ⊢
  have slice : ((front ++ text ++ back).drop front.length).take
      (front.length + text.length - front.length) = text := by
    simp
  rw [slice]
  refine Lib.cstring_of_stored (Lib.stored_of_bytes fun i less => ?_) nul (by simp; omega)
  rw [kept _ (by omega) (by omega), Lib.cbytes_get _ (by simp; omega)]
  simp [List.getElem_append_right, less]

end Strings

/-- parsecmd ends on every line. It returns a tree exactly if the tokens of the line are of the
grammar, it is the tree of the derivation, and its strings are words of the line. -/
theorem parsecmd_accepts_grammar (line : List Byte) :
    parsecmd line ≠ .error .spent ∧
    (∀ cmd, (∃ b, parsecmd line = .ok (cmd, b)) ↔ Line (tokens line.length line) cmd) ∧
    ∀ cmd b, parsecmd line = .ok (cmd, b) → ∀ s ∈ cmd.strs, .word s ∈ tokens line.length line ∧
      Lib.cstring b (line.length + 1) s.q = (line.drop s.q).take (s.eq - s.q) := by
  have fuel : 4 * (tokens line.length line).length + 4 ≤ 4 * line.length + 4 := by
    have : (tokens line.length line).length ≤ line.length := tokens_length_le
    omega
  have reads := (parser_reads line.length (4 * line.length + 4)).1 line fuel
  have sound : Ensures (parsecmd line) (fun r => Line (tokens line.length line) r.1 ∧
      r.2 = nulterminate r.1 (Lib.cbytes line)) (· ≠ .spent) := by
    refine reads.bind fun ⟨cmd, s⟩ ⟨ts, split, derives⟩ => ?_
    dsimp only [peek] at split ⊢
    split
    · exact Stop.noConfusion
    · rename_i done
      rw [tokens_eq_nil.mpr (not_not.mp done), List.append_nil] at split
      exact ⟨split ▸ derives, rfl⟩
  refine ⟨fun spent => sound.of_error spent rfl,
    fun cmd => ⟨fun ⟨b, done⟩ => (sound.of_ok done).1, fun derives => ?_⟩,
    fun cmd b done s mem => ?_⟩
  · obtain ⟨rest, parsed, none⟩ :=
      derives.accepts line.length _ line [] (List.append_nil _).symm (.inl rfl) fuel
    rw [parsecmd, parsed]
    simp only [Lib.ok_bind, peek, tokens_eq_nil.mp none, ne_eq, not_true_eq_false, if_false]
    exact ⟨_, rfl⟩
  · obtain ⟨derives, result⟩ := sound.of_ok done
    dsimp only at derives result
    subst result
    have word (s) (mem : s ∈ cmd.strs) : IsWord line s :=
      isWord_of_mem (List.nil_append line).symm (derives.mem_tokens s mem)
    refine ⟨derives.mem_tokens s mem, (word s mem).cstring ?_ fun i from_ to_ => ?_⟩
    · rw [nulterminate_get, if_pos ⟨s, mem, rfl⟩]
    · rw [nulterminate_get, if_neg fun ⟨other, inside, same⟩ => (word s mem).apart
        (word other inside) from_ to_ same]

/-- The line a>b;(c)& -/
theorem parsecmd_of_three_words :
    ∃ b, parsecmd [byte 'a', byte '>', byte 'b', byte ';', byte '(', byte 'c', byte ')', byte '&'] =
        .ok (.list (.redir (.exec [⟨0, 1⟩]) ⟨2, 3⟩ 0x201 1) (.back (.exec [⟨5, 6⟩])), b) ∧
      Lib.cstring b 9 0 = [byte 'a'] ∧ Lib.cstring b 9 2 = [byte 'b'] ∧
        Lib.cstring b 9 5 = [byte 'c'] := by
  refine ⟨_, rfl, ?_⟩
  have strings := (parsecmd_accepts_grammar
    [byte 'a', byte '>', byte 'b', byte ';', byte '(', byte 'c', byte ')', byte '&']).2.2 _ _ rfl
  exact ⟨(strings ⟨0, 1⟩ (by decide)).2, (strings ⟨2, 3⟩ (by decide)).2,
    (strings ⟨5, 6⟩ (by decide)).2⟩

end MmapXv6.Sh
