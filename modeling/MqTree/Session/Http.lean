import MqTree.Render
import MqTree.Script.Reader
import MqTree.Session.Basic

namespace MqTree

namespace Http

structure Request where
  method : String
  path : String
  body : Text

inductive Body where
  | json (j : Json)
  | plain (s : String)

structure Response where
  status : Nat
  body : Body

namespace Body

def contentType : Body → String
  | json _ => "application/json"
  | plain _ => "text/plain; charset=utf-8"

def bytes : Body → Text
  | json j => Text.ofString (Json.document Json.Layout.response j)
  | plain s => Text.ofString s

end Body

namespace Response

def ok (j : Json) : Response := ⟨200, .json j⟩

def notAllowed : Response := ⟨405, .plain "Method Not Allowed\n"⟩

def notFound : Response := ⟨404, .plain "Not Found\n"⟩

end Response

inductive Route where
  | list
  | create
  | fetch (id : String)
  | close (id : String)
  | edit (id : String)
  | notAllowed
  | notFound
  deriving DecidableEq, Repr

def basePath : String := "/v1/sessions"

def resource? (path : String) : Option (List Char) :=
  let base := (basePath ++ "/").toList
  if base.isPrefixOf path.toList then some (path.toList.drop base.length) else none

/-- Splits a resource at its last colon, behind which a custom method stands. -/
def customMethod? (cs : List Char) : Option (String × String) :=
  if cs.contains ':' then
    let method := (cs.reverse.takeWhile (· != ':')).reverse
    some (String.ofList (cs.take (cs.length - method.length - 1)), String.ofList method)
  else none

def Route.of (method path : String) : Route :=
  if path = basePath then
    if method = "GET" then .list else if method = "POST" then .create else .notAllowed
  else
    match resource? path with
    | none => .notFound
    | some cs =>
        if cs.isEmpty || cs.contains '/' then .notFound
        else
          match customMethod? cs with
          | some (id, custom) =>
              if custom = "edit" ∧ method = "POST" then .edit id else .notAllowed
          | none =>
              if method = "GET" then .fetch (String.ofList cs)
              else if method = "DELETE" then .close (String.ofList cs)
              else .notAllowed

structure Creation where
  name : Text
  text : Text

structure Change where
  edits? : Option Json
  text? : Option Text

def sameKey (a b : String) : Bool := a.toLower == b

def fieldsOf? : Json → Option (List (String × Json))
  | .null => some []
  | .obj fields => some fields
  | _ => none

/-- A field replaces what came before it, and null leaves that as it is. -/
def Creation.set (c : Creation) : String × Json → Option Creation
  | (key, .str t) =>
      if sameKey key "name" then some { c with name := t }
      else if sameKey key "text" then some { c with text := t }
      else some c
  | (_, .null) => some c
  | (key, _) => if sameKey key "name" || sameKey key "text" then none else some c

def Creation.read? (body : Text) : Option Creation := do
  let fields ← fieldsOf? (← Json.read? body)
  fields.foldlM Creation.set ⟨#[], #[]⟩

/-- A field replaces what came before it; null takes a text back. -/
def Change.set (c : Change) : String × Json → Option Change
  | (key, j) =>
      if sameKey key "edits" then some { c with edits? := some j }
      else if sameKey key "text" then
        match j with
        | .str t => some { c with text? := some t }
        | .null => some { c with text? := none }
        | _ => none
      else some c

def Change.read? (body : Text) : Option Change := do
  let fields ← fieldsOf? (← Json.read? body)
  fields.foldlM Change.set ⟨none, none⟩

def undecodable : SessionFailure :=
  .refused (.undecodable (.tagged "DecodeError" [] (.plain "json.Decode")))

def viewJson (s : Session) : Json :=
  .obj ([("id", .string s.id)] ++
    (if s.name.isEmpty then [] else [("name", .str s.name)]) ++
    [("createTime", .string s.created.render), ("updateTime", .string s.used.render),
      ("revision", .int s.tree.revision), ("size", .int s.tree.text.size),
      ("hasError", .bool s.tree.hasError)])

def sessionJson (s : Session) : Json :=
  .obj [("session", viewJson s), ("tree", s.tree.json s.name)]

def listedBefore (a b : Session) : Bool :=
  if a.created = b.created then decide (a.id < b.id) else a.created.before b.created

def listJson (st : Store) : Json :=
  .obj [("sessions", .arr ((sortedBy listedBefore st.sessions).map viewJson))]

def statusOf : SessionError → Nat
  | .notFound _ => 404
  | .tooLarge _ _ => 413
  | .undecodable _ | .inapplicable _ | .inconsistent _ => 400

def errorResponse (e : SessionError) : Response :=
  let detail := (e.fault.detail?).getD (.obj [("message", .string e.fault.message)])
  ⟨statusOf e, .json (.obj [("error", detail)])⟩

/-- The answer to a request and the sessions after it. `newId` is the id of the
session that a request may open. -/
def perform (svc : Service) (now : Instant) (newId : String) (body : Text) (st : Store) :
    Route → Except SessionFailure (Response × Store)
  | .list => .ok (.ok (listJson st), st)
  | .create => do
      let some c := Creation.read? body | throw undecodable
      let (s, st) ← svc.create now newId c.name c.text st
      pure (.ok (sessionJson s), st)
  | .fetch id => do
      let (s, st) ← Service.fetch now id st
      pure (.ok (sessionJson s), st)
  | .close id => do
      let (s, st) ← Service.close id st
      pure (.ok (viewJson s), st)
  | .edit id => do
      let s ← Service.find st id
      let some c := Change.read? body | throw undecodable
      let edits ← (Script.batchOfJson c.edits?).mapError fun f => .refused (.undecodable f)
      let (s, st) ← svc.edit now s edits c.text? st
      pure (.ok (sessionJson s), st)
  | .notAllowed => .ok (.notAllowed, st)
  | .notFound => .ok (.notFound, st)

/-- Answers a request. A request that is refused leaves the sessions as they
are. -/
def handle (svc : Service) (now : Instant) (newId : String) (req : Request) (st : Store) :
    Except Violation (Response × Store) :=
  match perform svc now newId req.body st (Route.of req.method req.path) with
  | .ok r => .ok r
  | .error (.refused e) => .ok (errorResponse e, st)
  | .error (.violation v) => .error v

end Http

end MqTree
