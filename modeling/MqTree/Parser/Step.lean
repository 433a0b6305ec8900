import MqTree.Parser.State

namespace MqTree.Parser

inductive Outcome where
  | done (items : List Item) (state : State)
  | failed (state : State)
  | halted (violation : Violation)

namespace Outcome

def bind (o : Outcome) (k : List Item → State → Outcome) : Outcome :=
  match o with
  | .done items s => k items s
  | .failed s => .failed s
  | .halted v => .halted v

@[simp] theorem bind_done (items : List Item) (s : State)
    (k : List Item → State → Outcome) : (Outcome.done items s).bind k = k items s := rfl

@[simp] theorem bind_failed (s : State) (k : List Item → State → Outcome) :
    (Outcome.failed s).bind k = .failed s := rfl

@[simp] theorem bind_halted (v : Violation) (k : List Item → State → Outcome) :
    (Outcome.halted v).bind k = .halted v := rfl

def after (items : List Item) (o : Outcome) : Outcome :=
  o.bind fun more s => .done (items ++ more) s

def andThen (o : Outcome) (k : State → Outcome) : Outcome :=
  o.bind fun items s => (k s).after items

end Outcome

/-- A piece of work: an expression to parse, or a loop to go on with. -/
inductive Task where
  | expr (e : Expr) (field : String)
  | copies (body : Expr) (min : Int) (count : Nat) (field : String)
  | elements (elem : Expr) (sep : String) (trailing : Bool) (field : String)
  | statements (field : String) (item : Expr) (closers : List String)
  /-- More suffixes behind what was built; `kind` is the kind of the node that
  those so far go into, empty if there were none. -/
  | suffixes (many : Bool) (suffixes : List (Suffix Expr)) (kind : String) (built : List Item)
      (field : String)
  /-- An operand, and the operators behind it that bind at least so tightly. -/
  | operand (kind : String) (operand : Expr) (ops : List (String × UInt8)) (power : UInt8)
      (field : String)
  | operators (kind : String) (operand : Expr) (ops : List (String × UInt8)) (power : UInt8)
      (left : List Item) (field : String)

abbrev Runner := Context → Task → State → Outcome

mutual

/-- What an expression expects, as placeholders say it. An expression without
parts to name has no description. -/
def describe? (t : Table) : Expr → Option String
  | .tok sym _ | .leaf _ sym => some sym
  | .ref name => (t.rule? name).map Rule.expected
  | .seq items => describeSeq? t items (describeFirst? t items)
  | .choice alts | .ordered alts => describeFirst? t alts
  | .opt body | .rep body _ | .sepBy body _ _ | .field _ body | .immediate body
  | .sameLine body | .suffixed body _ _ | .binary _ body _ | .unary _ _ body => describe? t body
  | .stmts .. => some "statement"

def describeSeq? (t : Table) : List Expr → Option String → Option String
  | [], default => default
  | e :: es, default => if t.nullable e then describeSeq? t es default else describe? t e

def describeFirst? (t : Table) : List Expr → Option String
  | [] => none
  | e :: _ => describe? t e

end

/-- Skips up to `n` tokens to one that can start `e`. Gives the skipped items
and their number, if there is such a token. -/
def skipUpTo (c : Context) (e : Expr) : Nat → Nat → List Item → State →
    Option (List Item × Nat) × State
  | 0, _, _, s => (none, s)
  | n + 1, count, skipped, s =>
      if s.skippable then
        let (items, next) := s.consumeAny c
        if next.canStart c e then (some (skipped ++ items, count + 1), next)
        else skipUpTo c e n (count + 1) (skipped ++ items) next
      else (none, s)

def skipTo (c : Context) (e : Expr) (s : State) : Option Item × State :=
  match skipUpTo c e c.window 0 [] s with
  | (some (skipped, count), next) =>
      (some (next.finish errorKind "" skipped), next.log (.skipped count next.token))
  | (none, next) => (none, next.rewind s)

def placeholder (c : Context) (e : Expr) (field : String) (s : State) : Outcome :=
  match describe? c.table e with
  | none => .halted .outOfRange
  | some label =>
      .done [⟨field, s.prevEnd, .placeholder label⟩] (s.log (.missing label s.token))

/-- Goes on where the token cannot start `e`. Attempts fail. Otherwise a few
tokens are skipped to reach `e`, if that is allowed and possible, or a
placeholder takes its place. -/
def recover (run : Runner) (c : Context) (e : Expr) (field : String) (maySkip : Bool)
    (s : State) : Outcome :=
  if c.speculating then .failed s
  else if maySkip then
    match skipTo c e s with
    | (some error, next) => (run c (.expr e field) next).after [error]
    | (none, next) => placeholder c e field next
  else placeholder c e field s

def consumeUntil (c : Context) (stop : State → Bool) : Nat → State → List Item × State
  | 0, s => ([], s)
  | n + 1, s =>
      if stop s then ([], s)
      else
        let (items, next) := s.consumeAny c
        let (more, last) := consumeUntil c stop n next
        (items ++ more, last)

def resumes (c : Context) (item : Expr) (closers : List String) (s : State) : Bool :=
  s.atListEnd closers || s.token.newlineBefore || s.canStart c item || s.token.isKeyword "end"

/-- The error made of the token, which starts no statement, and those up to one
that does, a new line or the end of the list. -/
def skipStatement (c : Context) (item : Expr) (closers : List String) (s : State) :
    Item × State :=
  let (first, next) := s.consumeAny c
  let (more, last) := consumeUntil c (resumes c item closers) c.src.size next
  (last.finish errorKind "" (first ++ more),
    last.log (.unexpected (first ++ more).length last.token))

/-- Takes over a statement of an earlier tree that starts at the token, and
moves behind it. Statements end outside interpolated strings, which is where the
lexer goes on. -/
def reuse? (c : Context) (field : String) (s : State) :
    Option (Except Violation (Item × State)) :=
  if c.speculating || !s.atBase then none
  else
    (s.reuse.take? (Int64.ofNat s.token.start)).map fun (sub, reuse) => do
      let stop := s.token.start + sub.length
      let lexer ← s.lexer.seek c.src stop
      let next :=
        { s with
          lexer := lexer.touch (stop + sub.scope.lookahead)
          prevEnd := stop.toNat
          reuse
          trace := .reused s.token.start sub :: s.trace }
      pure (⟨field, s.token.start, sub⟩, next.advance c)

/-- Marks a single item as a statement if it was read outside interpolated
strings from its first token to the one behind it. -/
def markStatement (before after : State) (items : List Item) : List Item :=
  match items with
  | [it] =>
      if before.atBase && after.atBase then
        [{ it with node := it.node.asStatement (after.lookahead it.stop) }]
      else [it]
  | items => items

def sequence (run : Runner) (c : Context) (field : String) : List Expr → State → Outcome
  | [], s => .done [] s
  | e :: es, s => (run c (.expr e field) s).andThen (sequence run c field es)

def attempt (run : Runner) (c : Context) (field : String) : List Expr → State → Outcome
  | [], _ => .halted .outOfRange
  | [last], s => run c (.expr last field) s
  | alt :: rest, s =>
      if s.canStart c alt then
        match run { c with speculating := true } (.expr alt field) s with
        | .failed stuck =>
            attempt run c field rest ((stuck.log (.backtracked stuck.token)).rewind s)
        | outcome => outcome
      else attempt run c field rest s

def reference (run : Runner) (c : Context) (name field : String) (s : State) : Outcome :=
  if !c.table.nullable (.ref name) && !s.canStart c (.ref name) then
    recover run c (.ref name) field true s
  else
    match c.table.rule? name with
    | none => .halted .outOfRange
    | some r =>
        if r.hidden then run c (.expr r.body field) s
        else
          (run c (.expr r.body "") s).bind fun children next =>
            .done [next.finish r.nodeKind field children] next

def expression (run : Runner) (c : Context) (field : String) (e : Expr) (s : State) : Outcome :=
  match e with
  | .tok sym words =>
      if !s.token.isEnd && s.token.symbol == sym && s.accepts c words then
        let (items, next) := s.consume c field sym (isNamedSymbol sym)
        .done items next
      else recover run c e field true s
  | .leaf kind sym =>
      if !s.token.isEnd && s.token.symbol == sym then
        let (items, next) := s.consume c field kind true
        .done items next
      else recover run c e field true s
  | .ref name => reference run c name field s
  | .seq items => sequence run c field items s
  | .choice alts =>
      match alts.find? (s.canStart c) with
      | some alt => run c (.expr alt field) s
      | none => recover run c e field true s
  | .ordered alts => attempt run c field alts s
  | .opt body => if s.canStart c body then run c (.expr body field) s else .done [] s
  | .rep body min => run c (.copies body min 0 field) s
  | .sepBy elem sep trailing =>
      if s.canStart c elem then run c (.elements elem sep trailing field) s else .done [] s
  | .field name body => run c (.expr body name) s
  | .immediate body | .sameLine body =>
      if s.canStart c e then run c (.expr body field) s else recover run c body field false s
  | .stmts name item closers => run c (.statements name item closers) s
  | .suffixed head many suffixes =>
      (run c (.expr head "") s).bind fun built next =>
        run c (.suffixes many suffixes "" built field) next
  | .binary kind operand ops => run c (.operand kind operand ops 0 field) s
  | .unary kind ops operand =>
      if s.token.kind == .punctuation && ops.contains s.token.lit then
        let (items, next) := s.consume c "operator" s.token.lit false
        (run c (.expr e "operand") next).bind fun more last =>
          .done [last.finish kind field (items ++ more)] last
      else run c (.expr operand field) s

def copies (run : Runner) (c : Context) (body : Expr) (min : Int) (count : Nat)
    (field : String) (s : State) : Outcome :=
  if s.canStart c body then
    (run c (.expr body field) s).andThen (run c (.copies body min (count + 1) field))
  else if min ≤ count then .done [] s
  else (recover run c body field true s).andThen (run c (.copies body min (count + 1) field))

def elements (run : Runner) (c : Context) (elem : Expr) (sep : String) (trailing : Bool)
    (field : String) (s : State) : Outcome :=
  (run c (.expr elem field) s).andThen fun s =>
    if s.token.symbol != sep then .done [] s
    else
      let (items, next) := s.consume c "" sep false
      Outcome.after items
        (if next.canStart c elem then run c (.elements elem sep trailing field) next
        else if trailing then .done [] next
        else recover run c elem field false next)

/-- The list goes on behind the comments before the token, with a statement
taken over, parsed, or skipped as an error. -/
def statements (run : Runner) (c : Context) (field : String) (item : Expr)
    (closers : List String) (s : State) : Outcome :=
  if s.atListEnd closers then .done [] s
  else
    let comments := s.pending
    let s := { s with pending := [] }
    let rest := run c (.statements field item closers)
    Outcome.after comments
      (match reuse? c field s with
      | some (.error v) => .halted v
      | some (.ok (taken, next)) => (rest next).after [taken]
      | none =>
          if s.canStart c item then
            (run c (.expr item field) s).bind fun items next =>
              (rest next).after (markStatement s next items)
          else if c.speculating then .failed s
          else
            let (error, next) := skipStatement c item closers s
            (rest next).after [error])

def closeSuffixes (s : State) (kind : String) (built : List Item) : List Item :=
  if kind = "" then built else [s.finish kind "" built]

def suffixes (run : Runner) (c : Context) (many : Bool) (all : List (Suffix Expr))
    (kind : String) (built : List Item) (field : String) (s : State) : Outcome :=
  match all.find? fun x => s.canStart c x.tail with
  | none => .done (withField field (closeSuffixes s kind built)) s
  | some x =>
      let built :=
        if kind = x.kind && kind != "" then built
        else withField x.headField (closeSuffixes s kind built)
      (run c (.expr x.tail "") s).bind fun more next =>
        if many then run c (.suffixes many all x.kind (built ++ more) field) next
        else .done (withField field (closeSuffixes next x.kind (built ++ more))) next

def power? (ops : List (String × UInt8)) (s : State) : Option UInt8 :=
  if s.token.kind == .punctuation then ops.lookup s.token.lit else none

def operators (run : Runner) (c : Context) (kind : String) (operand : Expr)
    (ops : List (String × UInt8)) (least : UInt8) (left : List Item) (field : String)
    (s : State) : Outcome :=
  match power? ops s with
  | none => .done (withField field left) s
  | some power =>
      if power < least then .done (withField field left) s
      else
        let (operator, next) := s.consume c "operator" s.token.symbol false
        (run c (.operand kind operand ops (power + 1) "right") next).bind fun right last =>
          run c (.operators kind operand ops least
            [last.finish kind "" (withField "left" left ++ operator ++ right)] field) last

/-- One task, given how the tasks it leads to are carried out. -/
def step (run : Runner) (c : Context) (task : Task) (s : State) : Outcome :=
  match task with
  | .expr e field => expression run c field e s
  | .copies body min count field => copies run c body min count field s
  | .elements elem sep trailing field => elements run c elem sep trailing field s
  | .statements field item closers => statements run c field item closers s
  | .suffixes many all kind built field => suffixes run c many all kind built field s
  | .operand kind operand ops least field =>
      (run c (.expr operand "") s).bind fun left next =>
        run c (.operators kind operand ops least left field) next
  | .operators kind operand ops least left field =>
      operators run c kind operand ops least left field s

def run : Nat → Runner
  | 0, _, _, _ => .halted .endless
  | fuel + 1, c, task, s => step (run fuel) c task s

end MqTree.Parser
