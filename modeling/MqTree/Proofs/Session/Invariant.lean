import MqTree.Proofs.Edit.Batch
import MqTree.Proofs.Grammar.MqLaw
import MqTree.Proofs.Parser.Orderly
import MqTree.Proofs.Session.History

namespace MqTree.Http

/-! What holds of every open session, however it came to be as it is. -/

variable {svc : Service} {o : Outline} {log : List Entry} {s : Session} {now : Instant}

namespace Entry

def Opens (id : String) (c : Creation) : Entry → Prop
  | ⟨.request _ newId req, some response⟩ =>
      newId = id ∧ Route.of req.method req.path = .create ∧ response.status = 200 ∧
        Creation.read? req.body = some c
  | _ => False

theorem edits_eq_false {id newId : String} {req : Request} {response : Response}
    (other : Route.of req.method req.path = .edit id → response.status ≠ 200) :
    edits id ⟨.request now newId req, some response⟩ = false := by
  rw [edits, Bool.and_eq_false_imp, decide_eq_true_iff, beq_eq_false_iff_ne]
  exact other

end Entry

structure Tended (svc : Service) (log : List Entry) (s : Session) : Prop where
  formed : s.tree.WellFormed
  fits : svc.admits s.tree.text.size = true
  traced : ∃ before entry since c, log = before ++ entry :: since ∧ entry.Opens s.id c ∧
    s.tree.revision = since.countP (Entry.edits s.id) ∧
    Edit.validate (Int64.ofNat c.text.size) s.tree.edits (Int64.ofNat s.tree.text.size) = .ok ()

namespace Tended

theorem opened {newId : String} {req : Request} {response : Response} {c : Creation} {tree : Tree}
    (law : svc.parser.table.Lawful o) (creates : Route.of req.method req.path = .create)
    (ok : response.status = 200) (read : Creation.read? req.body = some c)
    (fits : svc.admits c.text.size = true) (parsed : svc.parser.parse c.text = .ok tree)
    (log : List Entry) :
    Tended svc (log ++ [⟨.request now newId req, some response⟩])
      ⟨newId, c.name, tree, now, now⟩ := by
  obtain ⟨formed, text, revision, edits⟩ := Parser.parse_formed law parsed
  refine ⟨formed, by rwa [text], log, _, [], c, rfl, ⟨rfl, creates, ok, read⟩, revision, ?_⟩
  rw [edits, text]
  exact Edit.validate_of_sizeAfter rfl

theorem later (tended : Tended svc log s) {entry : Entry} (quiet : entry.edits s.id = false) :
    Tended svc (log ++ [entry]) s := by
  obtain ⟨before, first, since, c, rfl, opens, revision, valid⟩ := tended.traced
  refine ⟨tended.formed, tended.fits, before, first, since ++ [entry], c, ?_, opens, ?_, valid⟩
  · rw [List.append_assoc, List.cons_append]
  · rw [List.countP_append, List.countP_singleton, quiet, revision]
    rfl

theorem edited (tended : Tended svc log s) (law : svc.parser.table.Lawful o) {entry : Entry}
    (counts : entry.edits s.id = true) {edits : List Edit} {text : Text} {tree : Tree}
    (fits : svc.admits text.size = true)
    (reparsed : svc.parser.reparse s.tree edits text = .ok tree) :
    Tended svc (log ++ [entry]) { s with tree, used := now } := by
  obtain ⟨before, first, since, c, rfl, opens, revision, valid⟩ := tended.traced
  obtain ⟨formed, same, next, all, step⟩ := Parser.reparse_formed law tended.formed reparsed
  refine ⟨formed, by rwa [same], before, first, since ++ [entry], c, ?_, opens, ?_, ?_⟩
  · rw [List.append_assoc, List.cons_append]
  · rw [List.countP_append, List.countP_singleton, counts, ← revision]
    exact next
  · simp only [all, same]
    exact Edit.validate_append valid step

theorem used (tended : Tended svc log s) (now : Instant) : Tended svc log { s with used := now } :=
  ⟨tended.formed, tended.fits, tended.traced⟩

end Tended

structure Sane (svc : Service) (h : History) : Prop extends History.Kept h where
  tended : ∀ s ∈ h.store.sessions, Tended svc h.log s

theorem Sane.step {h : History} {input : Input} (sane : Sane svc h)
    (law : svc.parser.table.Lawful o) (distinct : (h.step svc input).opened.Nodup) :
    Sane svc (h.step svc input) := by
  refine ⟨sane.toKept.step distinct, ?_⟩
  rcases History.step_cases svc h input with ⟨deadline, rfl, made⟩ | ⟨now, newId, req, rfl, made⟩ |
    ⟨now, newId, req, response, store, rfl, handled, made⟩
  · rw [made]
    exact fun s member => (sane.tended s (Store.mem_sweep.mp member).1).later rfl
  · rw [made]
    exact fun s member => (sane.tended s member).later rfl
  · rw [made]
    generalize route : Route.of req.method req.path = asked at handled
    -- Whatever is not an edit leaves the revisions as they are.
    have quiet {s : Session} (member : s ∈ h.store.sessions)
        (other : asked = .edit s.id → response.status ≠ 200) :
        Tended svc (h.log ++ [⟨.request now newId req, some response⟩]) s :=
      (sane.tended s member).later (Entry.edits_eq_false (by rwa [route]))
    cases handled with
    | refused other => exact fun s member => quiet member fun _ => other
    | listed => exact fun s member => quiet member nofun
    | created read fits parsed =>
        intro s member
        rcases Store.mem_insert.mp member with old | rfl
        · exact quiet old nofun
        · exact .opened law route rfl read fits parsed h.log
    | fetched found =>
        intro s member
        rcases Store.mem_replace member with rfl | ⟨old, _⟩
        · exact (quiet (Store.mem_of_find? found) nofun).used now
        · exact quiet old nofun
    | closed found => exact fun s member => quiet (Store.mem_erase.mp member).1 nofun
    | edited found fits reparsed =>
        intro s member
        have own := Store.id_of_find? found
        rcases Store.mem_replace member with rfl | ⟨old, differs⟩
        · refine (sane.tended _ (Store.mem_of_find? found)).edited law ?_ fits reparsed
          rw [Entry.edits, route, own]
          simp [Response.ok]
        · refine quiet old fun same => absurd ?_ differs
          exact (Route.edit.inj same).symm.trans own.symm

end MqTree.Http
