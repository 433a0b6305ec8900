import MqTree.Fault
import MqTree.Grammar.Expr
import MqTree.Grammar.TermSet
import MqTree.Text.Quoted

namespace MqTree

/-! Grammars whose productions one token of lookahead tells apart. -/

def endSymbol : String := "end_of_input"
def errorSymbol : String := "error_token"
def commentSymbol : String := "comment"

/-- The terminals that stand for a class of tokens; their leaves are named. -/
def isNamedSymbol (sym : String) : Bool :=
  ["identifier", "number", "string", "string_content", "escaped_dollar", commentSymbol,
    errorSymbol].contains sym

inductive Flaw where
  | duplicated
  | misnamed
  | undefinedStart
  | undefinedRule (name : String)
  | tooManyTerminals (count : Nat)
  | leftRecursion
  | loneAlternative
  | emptyBody (what : String)
  | ambiguous (what : String) (symbols : String)
  | closersOverlap (symbols : String)
  deriving DecidableEq, Repr

namespace Flaw

def message : Flaw → String
  | duplicated => "duplicated rule"
  | misnamed => "hidden rules and only hidden rules must start with '_'"
  | undefinedStart => "start rule is not defined"
  | undefinedRule name => s!"reference to undefined rule " ++ quoted name
  | tooManyTerminals count => s!"too many terminals: {count}"
  | leftRecursion => "left recursion"
  | loneAlternative => "ordered choice needs at least two alternatives"
  | emptyBody what => s!"{what} body must not match the empty string"
  | ambiguous what symbols => s!"{what} alternatives are ambiguous on: {symbols}"
  | closersOverlap symbols => s!"statement list closers overlap statements: {symbols}"

end Flaw

structure Problem where
  rule : String
  flaw : Flaw
  deriving DecidableEq, Repr

namespace Problem

def message (p : Problem) : String := p.rule ++ ": " ++ p.flaw.message

def report (ps : List Problem) : String := "\n".intercalate (ps.map message)

end Problem

namespace Grammar

/-- The flaws of the rules as declared: each name once, and the underscore for
exactly the hidden ones. `seen` are the names of the rules before. -/
def declarationProblems (seen : List String) : List Rule → List Problem
  | [] => []
  | r :: rest =>
      if seen.contains r.name then
        ⟨r.name, .duplicated⟩ :: declarationProblems seen rest
      else if r.hidden != (r.name.toList.head? == some '_') then
        ⟨r.name, .misnamed⟩ :: declarationProblems (r.name :: seen) rest
      else
        declarationProblems (r.name :: seen) rest

def startProblems (g : Grammar) : List Problem :=
  if g.rules.any (·.name == g.start) then [] else [⟨g.start, .undefinedStart⟩]

def addSymbol (symbols : List String) (sym : String) : List String :=
  if symbols.contains sym then symbols else symbols ++ [sym]

def symbols (g : Grammar) : List String :=
  ((g.rules.flatMap fun r => r.body.parts.flatMap Expr.terminals)).foldl addSymbol
    [endSymbol, errorSymbol, commentSymbol]

def referenceProblems (g : Grammar) : List Problem :=
  g.rules.flatMap fun r => r.body.parts.filterMap fun
    | .ref name =>
        if g.rules.any (·.name == name) then none else some ⟨r.name, .undefinedRule name⟩
    | _ => none

def symbolProblems (g : Grammar) : List Problem :=
  if TermSet.limit < g.symbols.length then [⟨g.name, .tooManyTerminals g.symbols.length⟩] else []

/-- Marks the rules whose body matches the empty sequence by what is marked so
far. -/
def nullableRound (rules : List Rule) (known : List String) : List String :=
  rules.foldl
    (fun known r =>
      if known.contains r.name then known
      else if r.body.nullable known then r.name :: known else known)
    known

def nullableClosure (rules : List Rule) : Nat → List String → List String
  | 0, known => known
  | n + 1, known =>
      let next := nullableRound rules known
      if next.length = known.length then known else nullableClosure rules n next

/-- Every round but the last marks a rule, so there are no more than one round
for each. -/
def nullableRules (rules : List Rule) : List String :=
  nullableClosure rules (rules.length + 1) []

end Grammar

namespace Expr

variable {m : Type → Type} [Monad m]

mutual

/-- The terminals that can start an expression. References are resolved by
`rule`, which may do more than look them up. -/
def firstM (terminal : String → TermSet) (known : List String) (rule : String → m TermSet) :
    Expr → m TermSet
  | .tok sym _ | .leaf _ sym => pure (terminal sym)
  | .ref name => rule name
  | .seq items => firstOfSeq terminal known rule items
  | .choice alts | .ordered alts => firstOfAlts terminal known rule alts
  | .opt body | .rep body _ | .sepBy body _ _ | .field _ body | .immediate body
  | .sameLine body | .stmts _ body _ | .suffixed body _ _ | .binary _ body _ =>
      firstM terminal known rule body
  | .unary _ ops operand => do
      let fs ← firstM terminal known rule operand
      pure (ops.foldr (fun op set => terminal op ||| set) fs)

def firstOfSeq (terminal : String → TermSet) (known : List String) (rule : String → m TermSet) :
    List Expr → m TermSet
  | [] => pure TermSet.empty
  | e :: es => do
      let fs ← firstM terminal known rule e
      if e.nullable known then
        let rest ← firstOfSeq terminal known rule es
        pure (fs ||| rest)
      else
        pure fs

def firstOfAlts (terminal : String → TermSet) (known : List String) (rule : String → m TermSet) :
    List Expr → m TermSet
  | [] => pure TermSet.empty
  | e :: es => do
      let fs ← firstM terminal known rule e
      let rest ← firstOfAlts terminal known rule es
      pure (fs ||| rest)

end

end Expr

structure Search where
  firsts : List (String × TermSet)
  /-- The rules that were met again on the way to their own set. -/
  cycles : List String

structure Table where
  name : String
  start : String
  rules : List Rule
  symbols : List String
  nullables : List String
  firsts : List (String × TermSet)

namespace Table

def rule? (t : Table) (name : String) : Option Rule := t.rules.find? (·.name == name)

def termId? (t : Table) (sym : String) : Option Nat := t.symbols.idxOf? sym

def terminal (t : Table) (sym : String) : TermSet :=
  ((t.termId? sym).map TermSet.single).getD TermSet.empty

def terminals (t : Table) (syms : List String) : TermSet :=
  syms.foldr (fun sym set => t.terminal sym ||| set) TermSet.empty

def nullable (t : Table) (e : Expr) : Bool := e.nullable t.nullables

def ruleFirst (t : Table) (name : String) : TermSet :=
  (t.firsts.lookup name).getD TermSet.empty

def first (t : Table) (e : Expr) : TermSet :=
  Id.run (e.firstM t.terminal t.nullables t.ruleFirst)

def describe (t : Table) (s : TermSet) : String :=
  " ".intercalate (s.ids.map fun id => (t.symbols[id]?).getD "")

/-- Finds the set of a rule by way of the rules that can start it. `path` holds
the rules whose sets are being looked for; to meet one of them again is left
recursion. -/
def searchRule (t : Table) : Nat → List String → String → StateM Search TermSet
  | 0, _, _ => pure TermSet.empty
  | n + 1, path, name => do
      let s ← get
      match s.firsts.lookup name, t.rule? name with
      | some fs, _ => pure fs
      | none, none => pure TermSet.empty
      | none, some r =>
          if path.contains name then
            set { s with cycles := s.cycles ++ [name] }
            pure TermSet.empty
          else
            let fs ← r.body.firstM t.terminal t.nullables (searchRule t n (name :: path))
            modify fun s => { s with firsts := (name, fs) :: s.firsts }
            pure fs

def search (t : Table) : Search :=
  t.rules.foldl (fun s r => (t.searchRule (t.rules.length + 1) [] r.name s).2) ⟨[], []⟩

def emptinessProblems (t : Table) (rule what : String) (e : Expr) : List Problem :=
  if t.nullable e then [⟨rule, .emptyBody what⟩] else []

/-- Alternatives must match something, and start with different terminals. -/
def disjointnessProblems (t : Table) (rule what : String) : List Expr → List Problem
  | [] => []
  | alt :: rest =>
      t.emptinessProblems rule (what ++ " alternative") alt ++
      (rest.filterMap fun other =>
        let overlap := t.first alt &&& t.first other
        if overlap.isEmpty then none else some ⟨rule, .ambiguous what (t.describe overlap)⟩) ++
      t.disjointnessProblems rule what rest

def problemsOf (t : Table) (rule : String) : Expr → List Problem
  | .ordered alts => if alts.length < 2 then [⟨rule, .loneAlternative⟩] else []
  | .choice alts => t.disjointnessProblems rule "choice" alts
  | .opt body => t.emptinessProblems rule "optional" body
  | .rep body _ => t.emptinessProblems rule "repetition" body
  | .sepBy elem _ _ => t.emptinessProblems rule "separated list" elem
  | .immediate body => t.emptinessProblems rule "immediate" body
  | .sameLine body => t.emptinessProblems rule "same-line" body
  | .binary _ operand _ => t.emptinessProblems rule "infix operand" operand
  | .stmts _ item closers =>
      let overlap := t.terminals closers &&& t.first item
      t.emptinessProblems rule "statement" item ++
        if overlap.isEmpty then [] else [⟨rule, .closersOverlap (t.describe overlap)⟩]
  | .suffixed _ _ suffixes =>
      t.disjointnessProblems rule "postfix" (suffixes.map Suffix.tail)
  | _ => []

def problems (t : Table) : List Problem :=
  t.rules.flatMap fun r => r.body.parts.flatMap (t.problemsOf r.name)

/-- The table of a grammar whose declarations are in order, and the rules found
to be left recursive. -/
def draft (g : Grammar) : Table × List String :=
  let t : Table := ⟨g.name, g.start, g.rules, g.symbols, Grammar.nullableRules g.rules, []⟩
  let s := t.search
  ({ t with firsts := s.firsts }, s.cycles)

/-- Checks a grammar. Each stage runs only if the one before it found
nothing. -/
def build (g : Grammar) : Except (List Problem) Table :=
  match Grammar.declarationProblems [] g.rules ++ g.startProblems with
  | p :: ps => .error (p :: ps)
  | [] =>
      match g.referenceProblems ++ g.symbolProblems with
      | p :: ps => .error (p :: ps)
      | [] =>
          let (t, cycles) := draft g
          match cycles.map (⟨·, .leftRecursion⟩) ++ t.problems with
          | p :: ps => .error (p :: ps)
          | [] => .ok t

def demand (g : Grammar) : Except Violation Table :=
  (build g).mapError fun ps => .unsoundGrammar g.name (Problem.report ps)

end Table

end MqTree
