import MqTree.Instant
import MqTree.Parser.Revision

namespace MqTree

structure Session where
  id : String
  name : Text
  tree : Tree
  created : Instant
  /-- When the session was last created, fetched or edited. -/
  used : Instant

structure Store where
  sessions : List Session

structure Service where
  parser : Parser
  ttl : Duration
  /-- The largest text in bytes, if it is positive. -/
  maxTextBytes : Int

namespace Store

def empty : Store := ⟨[]⟩

def find? (st : Store) (id : String) : Option Session := st.sessions.find? (·.id == id)

def insert (st : Store) (s : Session) : Store := ⟨st.sessions ++ [s]⟩

def erase (st : Store) (id : String) : Store := ⟨st.sessions.filter (·.id != id)⟩

def replace (st : Store) (s : Session) : Store :=
  ⟨st.sessions.map fun old => if old.id == s.id then s else old⟩

def sweep (st : Store) (deadline : Instant) : Store :=
  ⟨st.sessions.filter (!·.used.before deadline)⟩

theorem id_of_find? {st : Store} {id : String} {s : Session} (h : st.find? id = some s) :
    s.id = id := by
  simpa [find?] using List.find?_some h

theorem mem_of_find? {st : Store} {id : String} {s : Session} (h : st.find? id = some s) :
    s ∈ st.sessions :=
  List.mem_of_find?_eq_some h

@[simp] theorem mem_insert {st : Store} {s t : Session} :
    t ∈ (st.insert s).sessions ↔ t ∈ st.sessions ∨ t = s := by
  simp [insert]

@[simp] theorem mem_erase {st : Store} {id : String} {t : Session} :
    t ∈ (st.erase id).sessions ↔ t ∈ st.sessions ∧ t.id ≠ id := by
  simp [erase]

@[simp] theorem mem_sweep {st : Store} {deadline : Instant} {t : Session} :
    t ∈ (st.sweep deadline).sessions ↔ t ∈ st.sessions ∧ t.used.before deadline = false := by
  simp [sweep]

theorem mem_replace {st : Store} {s t : Session} (h : t ∈ (st.replace s).sessions) :
    t = s ∨ t ∈ st.sessions ∧ t.id ≠ s.id := by
  simp only [replace, List.mem_map] at h
  obtain ⟨old, member, rfl⟩ := h
  by_cases same : old.id = s.id
  · simp [same]
  · simp [same, member]

end Store

namespace Service

/-- A service with these settings. A time to live of zero stands for half an
hour. -/
def start (parser : Parser) (ttl : Duration) (maxTextBytes : Int) : Service :=
  ⟨parser, if ttl = ⟨0⟩ then .ofMinutes 30 else ttl, maxTextBytes⟩

def admits (svc : Service) (size : Nat) : Bool := svc.maxTextBytes ≤ 0 || size ≤ svc.maxTextBytes

def sweep (svc : Service) (now : Instant) (st : Store) : Nat × Store :=
  let kept := st.sweep (now.minus svc.ttl)
  (st.sessions.length - kept.sessions.length, kept)

end Service

inductive SessionError where
  | notFound (id : String)
  | tooLarge (size : Nat) (limit : Int)
  | undecodable (f : Fault)
  | inapplicable (error : EditError)
  | inconsistent (error : EditError)

namespace SessionError

def fault : SessionError → Fault
  | notFound id =>
      .tagged "SessionNotFoundError" [("id", .string id)]
        (.plain ("session " ++ quoted id ++ " does not exist"))
  | tooLarge size limit =>
      .tagged "TextTooLargeError" [("size", .int size), ("limit", .int limit)]
        (.plain s!"text has {size} bytes, the limit is {limit}")
  | undecodable f => f
  | inapplicable e => .during "cst.ApplyEdits" e.fault
  | inconsistent e => .during "cst.ValidateEdits" e.fault

end SessionError

/-- Why a request gives no session: it is refused, or something is broken. -/
inductive SessionFailure where
  | refused (e : SessionError)
  | violation (v : Violation)

namespace Service

def find (st : Store) (id : String) : Except SessionFailure Session :=
  match st.find? id with
  | some s => .ok s
  | none => .error (.refused (.notFound id))

def checkSize (svc : Service) (size : Nat) : Except SessionFailure Unit :=
  if svc.admits size then .ok () else .error (.refused (.tooLarge size svc.maxTextBytes))

def create (svc : Service) (now : Instant) (id : String) (name text : Text) (st : Store) :
    Except SessionFailure (Session × Store) := do
  svc.checkSize text.size
  let tree ← (svc.parser.parse text).mapError .violation
  let s : Session := ⟨id, name, tree, now, now⟩
  pure (s, st.insert s)

/-- Fetches a session, which counts as use. -/
def fetch (now : Instant) (id : String) (st : Store) : Except SessionFailure (Session × Store) := do
  let s ← find st id
  let s := { s with used := now }
  pure (s, st.replace s)

def ofReparseError : Parser.ReparseError → SessionFailure
  | .invalid e => .refused (.inconsistent e)
  | .violation v => .violation v

def revise (svc : Service) (tree : Tree) (edits : List Edit) (text? : Option Text) :
    Except SessionFailure Tree := do
  let text ← match text? with
    | some text => pure text
    | none => (Edit.applyAll tree.text edits).mapError fun e => .refused (.inapplicable e)
  svc.checkSize text.size
  (svc.parser.reparse tree edits text).mapError ofReparseError

def edit (svc : Service) (now : Instant) (s : Session) (edits : List Edit) (text? : Option Text)
    (st : Store) : Except SessionFailure (Session × Store) := do
  let tree ← svc.revise s.tree edits text?
  let s := { s with tree, used := now }
  pure (s, st.replace s)

def close (id : String) (st : Store) : Except SessionFailure (Session × Store) := do
  let s ← find st id
  pure (s, st.erase id)

end Service

end MqTree
