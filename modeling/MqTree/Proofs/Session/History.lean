import Mathlib.Data.List.Induction
import Mathlib.Data.List.Nodup
import MqTree.Proofs.Session.Handled
import MqTree.Proofs.Session.Routing

namespace MqTree

/-! Sessions from one request to the next, each of them under its own id. -/

namespace Store

def Keyed (st : Store) : Prop := (st.sessions.map Session.id).Nodup

structure Splits (st : Store) (id : String) (front : List Session) (s : Session)
    (rest : List Session) : Prop where
  sessions : st.sessions = front ++ s :: rest
  own : s.id = id
  others : ∀ other ∈ front ++ rest, other.id ≠ id

variable {st : Store} {s t : Session} {id : String}

namespace Keyed

theorem find? (keyed : st.Keyed) (member : s ∈ st.sessions) : st.find? s.id = some s := by
  obtain ⟨front, rest, split⟩ := List.append_of_mem member
  rw [Keyed, split, List.map_append, List.map_cons, List.nodup_append] at keyed
  refine List.find?_eq_some_iff_append.mpr ⟨beq_self_eq_true s.id, front, rest, split, ?_⟩
  intro other before
  have differs := keyed.2.2 _ (List.mem_map_of_mem before) _ List.mem_cons_self
  simpa using differs

theorem splits (keyed : st.Keyed) (found : st.find? id = some s) :
    ∃ front rest, st.Splits id front s rest := by
  obtain ⟨front, rest, split⟩ := List.append_of_mem (mem_of_find? found)
  have own := id_of_find? found
  rw [Keyed, split, List.map_append, List.map_cons, List.nodup_append, List.nodup_cons] at keyed
  obtain ⟨_, ⟨later, _⟩, earlier⟩ := keyed
  refine ⟨front, rest, split, own, List.forall_mem_append.mpr ⟨?_, ?_⟩⟩
  · intro other before same
    exact earlier _ (List.mem_map_of_mem before) _ List.mem_cons_self (same.trans own.symm)
  · intro other behind same
    rw [own, ← same] at later
    exact later (List.mem_map_of_mem behind)

theorem insert (keyed : st.Keyed) (fresh : ∀ other ∈ st.sessions, other.id ≠ s.id) :
    (st.insert s).Keyed := by
  rw [Keyed, Store.insert, List.map_append, List.nodup_append]
  refine ⟨keyed, List.nodup_singleton _, ?_⟩
  intro own member last here
  obtain ⟨other, inside, rfl⟩ := List.mem_map.mp member
  rw [List.mem_singleton.mp here]
  exact fresh other inside

theorem replace (keyed : st.Keyed) : (st.replace s).Keyed := by
  have same : (st.replace s).sessions.map Session.id = st.sessions.map Session.id := by
    rw [Store.replace, List.map_map]
    refine List.map_congr_left fun old _ => ?_
    simp only [Function.comp]
    split
    next here => exact (beq_iff_eq.mp here).symm
    next => rfl
  rw [Keyed, same]
  exact keyed

theorem filter (keyed : st.Keyed) (keeps : Session → Bool) :
    Keyed ⟨st.sessions.filter keeps⟩ :=
  keyed.sublist (List.filter_sublist.map Session.id)

end Keyed

namespace Splits

variable {front rest : List Session}

theorem replace (splits : st.Splits id front s rest) (same : t.id = id) :
    (st.replace t).sessions = front ++ t :: rest := by
  obtain ⟨before, behind⟩ := List.forall_mem_append.mp splits.others
  have kept {others : List Session} (differ : ∀ other ∈ others, other.id ≠ id) :
      (others.map fun old => if old.id == t.id then t else old) = others := by
    refine (List.map_congr_left fun old member => ?_).trans others.map_id
    rw [same, if_neg (by simpa using differ old member)]
    rfl
  rw [Store.replace, splits.sessions, List.map_append, List.map_cons, kept before, kept behind,
    if_pos (by rw [splits.own, same, beq_self_eq_true])]

theorem erase (splits : st.Splits id front s rest) : (st.erase id).sessions = front ++ rest := by
  obtain ⟨before, behind⟩ := List.forall_mem_append.mp splits.others
  have kept {others : List Session} (differ : ∀ other ∈ others, other.id ≠ id) :
      others.filter (·.id != id) = others :=
    List.filter_eq_self.mpr fun old member => by simpa using differ old member
  rw [Store.erase, splits.sessions, List.filter_append,
    List.filter_cons_of_neg (by simp [splits.own]), kept before, kept behind]

end Splits

end Store

namespace Http

/-! ### Histories -/

/-- What happens to a service: a request, with the time and the id that a new
session would get, or a sweep of the sessions that were last used before a
moment. -/
inductive Input where
  | request (now : Instant) (newId : String) (req : Request)
  | sweep (deadline : Instant)

structure Entry where
  input : Input
  answer : Option Response

namespace Entry

def opened? : Entry → Option String
  | ⟨.request _ newId req, some response⟩ =>
      if Route.of req.method req.path = .create ∧ response.status = 200 then some newId else none
  | _ => none

def edits (id : String) : Entry → Bool
  | ⟨.request _ _ req, some response⟩ =>
      Route.of req.method req.path = .edit id && response.status == 200
  | _ => false

end Entry

structure History where
  log : List Entry
  store : Store

namespace History

def start : History := ⟨[], .empty⟩

/-- What happens next. A request that breaks off is not answered and leaves the
sessions as they are. -/
def step (svc : Service) (h : History) (input : Input) : History :=
  match input with
  | .request now newId req =>
      match handle svc now newId req h.store with
      | .ok (response, store) => ⟨h.log ++ [⟨input, some response⟩], store⟩
      | .error _ => ⟨h.log ++ [⟨input, none⟩], h.store⟩
  | .sweep deadline => ⟨h.log ++ [⟨input, none⟩], h.store.sweep deadline⟩

def run (svc : Service) (inputs : List Input) : History := inputs.foldl (step svc) start

def opened (h : History) : List String := h.log.filterMap Entry.opened?

variable {svc : Service} {h : History} {input : Input}

theorem step_cases (svc : Service) (h : History) (input : Input) :
    (∃ deadline, input = .sweep deadline ∧
      h.step svc input = ⟨h.log ++ [⟨input, none⟩], h.store.sweep deadline⟩) ∨
    (∃ now newId req, input = .request now newId req ∧
      h.step svc input = ⟨h.log ++ [⟨input, none⟩], h.store⟩) ∨
    ∃ now newId req response store, input = .request now newId req ∧
      Handled svc now newId req.body h.store (Route.of req.method req.path) response store ∧
      h.step svc input = ⟨h.log ++ [⟨input, some response⟩], store⟩ := by
  cases input with
  | sweep deadline => exact Or.inl ⟨deadline, rfl, rfl⟩
  | request now newId req =>
      right
      cases done : handle svc now newId req h.store with
      | error v => exact Or.inl ⟨now, newId, req, rfl, by rw [step, done]⟩
      | ok result =>
          obtain ⟨response, store⟩ := result
          exact Or.inr ⟨now, newId, req, response, store, rfl, handled_of_handle done,
            by rw [step, done]⟩

theorem opened_append (h : History) (entry : Entry) (store : Store) :
    opened ⟨h.log ++ [entry], store⟩ = h.opened ++ entry.opened?.toList := by
  rw [opened, List.filterMap_append, List.filterMap_cons, List.filterMap_nil]
  cases entry.opened? <;> rfl

theorem opened_step (svc : Service) (h : History) (input : Input) :
    ∃ more, (h.step svc input).opened = h.opened ++ more := by
  rcases step_cases svc h input with ⟨_, _, made⟩ | ⟨_, _, _, _, made⟩ | ⟨_, _, _, _, _, _, _, made⟩
  all_goals
    rw [made, opened_append]
    exact ⟨_, rfl⟩

/-- What every step keeps to that opens no session under a used id holds all
along. -/
theorem run_induction {P : History → Prop} (base : P start)
    (next : ∀ h input, (h.step svc input).opened.Nodup → P h → P (h.step svc input))
    (inputs : List Input) (distinct : (run svc inputs).opened.Nodup) : P (run svc inputs) := by
  induction inputs using List.reverseRecOn with
  | nil => exact base
  | append_singleton inputs input ih =>
      rw [run, List.foldl_concat] at distinct ⊢
      obtain ⟨more, made⟩ := opened_step svc (run svc inputs) input
      have before := distinct
      rw [show inputs.foldl (step svc) start = run svc inputs from rfl, made] at before
      exact next _ input distinct (ih (List.nodup_append.mp before).1)

structure Kept (h : History) : Prop where
  keyed : h.store.Keyed
  ids : ∀ s ∈ h.store.sessions, s.id ∈ h.opened

theorem Kept.start : Kept start := ⟨List.nodup_nil, fun _ none => absurd none List.not_mem_nil⟩

theorem Kept.fresh {now : Instant} {newId : String} {req : Request} {response : Response}
    {store : Store} (kept : Kept h)
    (distinct :
      (History.mk (h.log ++ [⟨.request now newId req, some response⟩]) store).opened.Nodup)
    (creates : Route.of req.method req.path = .create) (ok : response.status = 200) :
    ∀ s ∈ h.store.sessions, s.id ≠ newId := by
  rintro s member rfl
  rw [opened_append, Entry.opened?, if_pos ⟨creates, ok⟩, Option.toList_some, List.nodup_append]
    at distinct
  exact distinct.2.2 _ (kept.ids s member) _ (List.mem_singleton_self _) rfl

theorem Kept.step (kept : Kept h) (distinct : (h.step svc input).opened.Nodup) :
    Kept (h.step svc input) := by
  have further {entry : Entry} {store : Store} {s : Session} (known : s.id ∈ h.opened) :
      s.id ∈ opened ⟨h.log ++ [entry], store⟩ := by
    rw [opened_append]
    exact List.mem_append_left _ known
  rcases step_cases svc h input with ⟨deadline, _, made⟩ | ⟨_, _, _, _, made⟩ |
    ⟨now, newId, req, response, store, rfl, handled, made⟩
  · rw [made]
    refine ⟨kept.keyed.filter _, fun s member => further (kept.ids s ?_)⟩
    exact (Store.mem_sweep.mp member).1
  · rw [made]
    exact ⟨kept.keyed, fun s member => further (kept.ids s member)⟩
  · rw [made] at distinct ⊢
    generalize route : Route.of req.method req.path = asked at handled
    cases handled with
    | refused | listed => exact ⟨kept.keyed, fun s member => further (kept.ids s member)⟩
    | created read fits parsed =>
        have fresh := kept.fresh distinct route rfl
        refine ⟨kept.keyed.insert fresh, fun s member => ?_⟩
        rcases Store.mem_insert.mp member with old | rfl
        · exact further (kept.ids s old)
        · rw [opened_append, Entry.opened?, if_pos ⟨route, rfl⟩]
          exact List.mem_append_right _ (List.mem_singleton_self _)
    | fetched found | edited found =>
        have known := kept.ids _ (Store.mem_of_find? found)
        refine ⟨kept.keyed.replace, fun s member => ?_⟩
        rcases Store.mem_replace member with rfl | ⟨old, _⟩
        · exact further known
        · exact further (kept.ids s old)
    | closed found =>
        refine ⟨kept.keyed.filter _, fun s member => further (kept.ids s ?_)⟩
        exact (Store.mem_erase.mp member).1

theorem run_kept (inputs : List Input) (distinct : (run svc inputs).opened.Nodup) :
    Kept (run svc inputs) :=
  run_induction .start (fun _ _ distinct kept => kept.step distinct) inputs distinct

end History

/-! ### Isolation -/

inductive Effect (now : Instant) (newId : String) (before after : Store) : String → String → Prop
  | listed (same : after = before) : Effect now newId before after "GET" basePath
  | created {s : Session} (own : s.id = newId) (fresh : ∀ other ∈ before.sessions, other.id ≠ newId)
      (added : after.sessions = before.sessions ++ [s]) :
      Effect now newId before after "POST" basePath
  | fetched {id : String} {front rest : List Session} {s : Session} (named : Named id)
      (splits : before.Splits id front s rest)
      (renewed : after.sessions = front ++ { s with used := now } :: rest) :
      Effect now newId before after "GET" (basePath ++ "/" ++ id)
  | edited {id : String} {front rest : List Session} {s : Session} {tree : Tree}
      (slashless : '/' ∉ id.toList) (splits : before.Splits id front s rest)
      (revised : after.sessions = front ++ { s with tree, used := now } :: rest) :
      Effect now newId before after "POST" (basePath ++ "/" ++ id ++ ":edit")
  | closed {id : String} {front rest : List Session} {s : Session} (named : Named id)
      (splits : before.Splits id front s rest) (removed : after.sessions = front ++ rest) :
      Effect now newId before after "DELETE" (basePath ++ "/" ++ id)

/-- Whatever goes well with the method DELETE removes the session that the path
names. -/
theorem Effect.closes {now : Instant} {newId id : String} {before after : Store}
    (effect : Effect now newId before after "DELETE" (basePath ++ "/" ++ id)) :
    ∃ front s rest, before.Splits id front s rest ∧ after.sessions = front ++ rest := by
  generalize asked : "DELETE" = method, names : basePath ++ "/" ++ id = path at effect
  cases effect with
  | listed | created | fetched | edited => exact absurd asked (by decide)
  | closed named splits removed =>
      obtain rfl := (String.append_right_inj _).mp names
      exact ⟨_, _, _, splits, removed⟩

/-- A request that is refused changes nothing, and one that goes well only what
it is about. -/
theorem request_isolated (svc : Service) (inputs : List Input) (now : Instant) (newId : String)
    (req : Request) (response : Response) (after : Store)
    (distinct : (History.run svc inputs).opened.Nodup)
    (fresh : req.method = "POST" → req.path = basePath →
      (History.run svc inputs).store.find? newId = none)
    (answered : handle svc now newId req (History.run svc inputs).store = .ok (response, after)) :
    (response.status ≠ 200 → after = (History.run svc inputs).store) ∧
      (response.status = 200 →
        Effect now newId (History.run svc inputs).store after req.method req.path) := by
  have keyed := (History.run_kept inputs distinct).keyed
  have handled := handled_of_handle answered
  generalize (History.run svc inputs).store = store at keyed fresh handled
  generalize route : Route.of req.method req.path = asked at handled
  cases handled with
  | refused other => exact ⟨fun _ => rfl, fun ok => absurd ok other⟩
  | listed =>
      obtain ⟨method, path⟩ := Route.of_eq_list.mp route
      rw [method, path]
      exact ⟨fun _ => rfl, fun _ => .listed rfl⟩
  | created read fits parsed =>
      obtain ⟨method, path⟩ := Route.of_eq_create.mp route
      have unused := List.find?_eq_none.mp (fresh method path)
      rw [method, path]
      refine ⟨fun refused => absurd rfl refused, fun _ => .created rfl ?_ rfl⟩
      exact fun other member same => unused other member (beq_iff_eq.mpr same)
  | fetched found =>
      obtain ⟨method, path, named⟩ := Route.of_eq_fetch.mp route
      obtain ⟨front, rest, splits⟩ := keyed.splits found
      rw [method, path]
      exact ⟨fun refused => absurd rfl refused,
        fun _ => .fetched named splits (splits.replace splits.own)⟩
  | edited found fits reparsed =>
      obtain ⟨method, path, slashless⟩ := Route.of_eq_edit.mp route
      obtain ⟨front, rest, splits⟩ := keyed.splits found
      rw [method, path]
      exact ⟨fun refused => absurd rfl refused,
        fun _ => .edited slashless splits (splits.replace splits.own)⟩
  | closed found =>
      obtain ⟨method, path, named⟩ := Route.of_eq_close.mp route
      obtain ⟨front, rest, splits⟩ := keyed.splits found
      rw [method, path]
      exact ⟨fun refused => absurd rfl refused, fun _ => .closed named splits splits.erase⟩

def opening : Input :=
  .request ⟨0⟩ "a" ⟨"POST", "/v1/sessions", Text.ofString "\x7b\"text\":\"1\"\x7d"⟩

def another : Input :=
  .request ⟨1⟩ "b" ⟨"POST", "/v1/sessions", Text.ofString "\x7b\"text\":\"2\"\x7d"⟩

def closing : Request := ⟨"DELETE", "/v1/sessions/a", #[]⟩

theorem request_isolated_closing : ∃ s t response after,
    (History.run (.start {} ⟨0⟩ 0) [opening, another]).store.sessions = [s, t] ∧
    s.id = "a" ∧ t.id = "b" ∧
    handle (.start {} ⟨0⟩ 0) ⟨2⟩ "c" closing
      (History.run (.start {} ⟨0⟩ 0) [opening, another]).store = .ok (response, after) ∧
    response.status = 200 ∧ after.sessions = [t] := by
  have computed : (History.run (.start {} ⟨0⟩ 0) [opening, another]).opened = ["a", "b"] ∧
      (History.run (.start {} ⟨0⟩ 0) [opening, another]).store.sessions.map Session.id =
        ["a", "b"] ∧
      (handle (.start {} ⟨0⟩ 0) ⟨2⟩ "c" closing
        (History.run (.start {} ⟨0⟩ 0) [opening, another]).store).toOption.map (·.1.status) =
          some 200 := by
    decide +kernel
  obtain ⟨opened, ids, status⟩ := computed
  obtain ⟨s, others, two, a, left⟩ := List.map_eq_cons_iff.mp ids
  obtain ⟨t, none, rfl, b, nothing⟩ := List.map_eq_cons_iff.mp left
  obtain rfl := List.map_eq_nil_iff.mp nothing
  cases answered : handle (.start {} ⟨0⟩ 0) ⟨2⟩ "c" closing
      (History.run (.start {} ⟨0⟩ 0) [opening, another]).store with
  | error v =>
      rw [answered] at status
      contradiction
  | ok result =>
      obtain ⟨response, after⟩ := result
      rw [answered] at status
      have ok : response.status = 200 := Option.some.inj status
      have isolated := request_isolated (.start {} ⟨0⟩ 0) [opening, another] ⟨2⟩ "c" closing
        response after (by rw [opened]; decide) (fun posts => absurd posts (by decide)) answered
      have effect : Effect ⟨2⟩ "c" _ after "DELETE" (basePath ++ "/" ++ "a") := isolated.2 ok
      obtain ⟨front, own, rest, splits, removed⟩ := effect.closes
      refine ⟨s, t, response, after, two, a, b, rfl, ok, ?_⟩
      have split := two.symm.trans splits.sessions
      cases front with
      | nil =>
          obtain ⟨rfl, rfl⟩ := List.cons.inj split
          exact removed
      | cons first others =>
          obtain ⟨rfl, _⟩ := List.cons.inj split
          exact absurd a (splits.others s List.mem_cons_self)

end Http

end MqTree
