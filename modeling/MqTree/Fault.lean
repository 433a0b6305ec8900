import MqTree.Edit
import MqTree.Json.Basic
import MqTree.Sorted

namespace MqTree

/-! Calls outside a function's domain. They are bugs of the caller, not errors
of the input, and are kept apart from the latter. -/

inductive Violation where
  | startOutOfRange (offset : Int) (size : Nat)
  | seekOutOfRange (offset : Int) (size : Nat)
  | outOfRange
  | unsoundGrammar (name : String) (problems : String)
  | endless
  deriving DecidableEq, Repr

namespace Violation

def message? : Violation → Option String
  | startOutOfRange offset size => some s!"lexer offset {offset} out of range [0,{size}]"
  | seekOutOfRange offset size => some s!"seek offset {offset} out of range [0,{size}]"
  | outOfRange => none
  | unsoundGrammar name problems => some s!"grammar {name}: {problems}"
  | endless => none

end Violation

/-! Errors of the input, as they are shown to users: a cause, and around it what
was being done and what sort of error it is. -/

inductive Fault where
  | plain (text : String)
  | during (what : String) (cause : Fault)
  /-- A sort of error that needs no cause. -/
  | bare (sort : String) (extra : List (String × Json))
  /-- A cause with its sort, and facts about it for programs to read. -/
  | tagged (sort : String) (extra : List (String × Json)) (cause : Fault)

namespace Fault

def message : Fault → String
  | plain text => text
  | during what cause => what ++ ": " ++ cause.message
  | bare sort _ => sort
  | tagged sort _ cause => sort ++ ": " ++ cause.message

def tags : Fault → List String
  | plain _ => []
  | during _ cause => cause.tags
  | bare sort _ => [sort]
  | tagged sort _ cause => sort :: cause.tags

def hasTag (f : Fault) (tag : String) : Bool := f.tags.contains tag

def tag? (f : Fault) : Option String := f.tags.head?

/-- Fields by name, the later one for each name, in alphabetical order. -/
def merge (fields extra : List (String × Json)) : List (String × Json) :=
  sortedBy (fun a b => decide (a.1 < b.1))
    (fields.filter (fun (key, _) => !extra.any (·.1 == key)) ++ extra)

/-- What the outermost sort of an error tells programs: all sorts, the message
behind it, and its facts. -/
def detail? : Fault → Option Json
  | plain _ => none
  | during _ cause => cause.detail?
  | bare sort extra => some (.obj (merge [("tags", .arr [.string sort])] extra))
  | tagged sort extra cause =>
      some (.obj (merge
        [("tags", .arr ((sort :: cause.tags).map .string)), ("message", .string cause.message)]
        extra))

end Fault

namespace EditError

def fault : EditError → Fault
  | outOfRange index edit size =>
      .tagged "EditRangeError" [("index", .int index), ("size", .int size.toInt)]
        (.plain s!"edit #{index} {edit.render} is out of range for {size.toInt} bytes")
  | wrongText index edit length =>
      .tagged "EditTextError" [("index", .int index)]
        (.plain s!"edit #{index} {edit.render} carries {length} bytes of text")
  | noText index edit =>
      .tagged "EditTextError" [("index", .int index)]
        (.plain s!"edit #{index} {edit.render} has no text to insert")
  | wrongLength expected actual =>
      .tagged "EditLengthError" [("expected", .int expected.toInt), ("actual", .int actual.toInt)]
        (.plain s!"edits produce {expected.toInt} bytes but the new text has {actual.toInt}")

end EditError

/-- Why a call gave no result: the input is at fault, or the caller is. -/
inductive Failure where
  | fault (f : Fault)
  | violation (v : Violation)

end MqTree
