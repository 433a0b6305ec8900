import MqTree.Text.Basic

namespace MqTree

/-- Replaces the bytes `[start, oldEnd)` of a text, so that `[start, newEnd)`
takes their place. Offsets count in the text after all edits before it. -/
structure Edit where
  start : Int64
  oldEnd : Int64
  newEnd : Int64
  text : Option Text
  deriving DecidableEq

inductive EditError where
  | outOfRange (index : Nat) (edit : Edit) (size : Int64)
  | wrongText (index : Nat) (edit : Edit) (length : Nat)
  | noText (index : Nat) (edit : Edit)
  | wrongLength (expected actual : Int64)
  deriving DecidableEq

namespace Edit

def delta (e : Edit) : Int64 := e.newEnd - e.oldEnd

def render (e : Edit) : String :=
  s!"[{e.start.toInt},{e.oldEnd.toInt})->[{e.start.toInt},{e.newEnd.toInt})"

def inRange (e : Edit) (size : Int64) : Bool :=
  0 ≤ e.start && e.start ≤ e.oldEnd && e.oldEnd ≤ size && e.start ≤ e.newEnd

def textFits (e : Edit) : Bool :=
  match e.text with
  | none => true
  | some text => Int64.ofNat text.size == e.newEnd - e.start

/-- The size that edits leave of a text of `size` bytes, if each is in order;
`index` is the number of the first. -/
def sizeAfter (index : Nat) (size : Int64) : List Edit → Except EditError Int64
  | [] => .ok size
  | e :: rest =>
      if !e.inRange size then .error (.outOfRange index e size)
      else if !e.textFits then .error (.wrongText index e ((e.text.map Array.size).getD 0))
      else sizeAfter (index + 1) (size + e.delta) rest

@[simp] theorem sizeAfter_nil (index : Nat) (size : Int64) : sizeAfter index size [] = .ok size := rfl

theorem sizeAfter_append (index : Nat) (size : Int64) (a b : List Edit) :
    sizeAfter index size (a ++ b) =
      (sizeAfter index size a).bind fun mid => sizeAfter (index + a.length) mid b := by
  induction a generalizing index size with
  | nil => rfl
  | cons e rest ih =>
      simp only [List.cons_append, sizeAfter]
      split
      · rfl
      · split
        · rfl
        · rw [ih, List.length_cons, Nat.add_right_comm, Nat.add_assoc]

def validate (oldSize : Int64) (edits : List Edit) (newSize : Int64) : Except EditError Unit := do
  let size ← sizeAfter 0 oldSize edits
  if size = newSize then pure () else throw (.wrongLength size newSize)

def missingText? (index : Nat) : List Edit → Option EditError
  | [] => none
  | e :: rest => if e.text.isNone then some (.noText index e) else missingText? (index + 1) rest

def splice (text : Text) (e : Edit) : Text :=
  text.extract 0 e.start.toInt.toNat ++ e.text.getD #[] ++
    text.extract e.oldEnd.toInt.toNat text.size

/-- The text that edits lead to. Every edit must carry its text. -/
def applyAll (text : Text) (edits : List Edit) : Except EditError Text := do
  if let some error := missingText? 0 edits then throw error
  let size := Int64.ofNat text.size
  validate size edits (edits.foldl (fun size e => size + e.delta) size)
  pure (edits.foldl splice text)

end Edit

end MqTree
