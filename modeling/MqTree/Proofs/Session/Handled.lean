import MqTree.Session.Http

namespace MqTree

section

variable {ε ε' α β : Type}

theorem bind_eq_ok {x : Except ε α} {f : α → Except ε β} {b : β} (done : x >>= f = .ok b) :
    ∃ a, x = .ok a ∧ f a = .ok b := by
  cases x with
  | error e => contradiction
  | ok a => exact ⟨a, rfl, done⟩

theorem mapError_eq_ok {x : Except ε α} {f : ε → ε'} {a : α} (done : x.mapError f = .ok a) :
    x = .ok a := by
  cases x with
  | error e => contradiction
  | ok b => exact congrArg Except.ok (Except.ok.inj done)

end

namespace Service

variable {svc : Service} {now : Instant} {id : String} {s t : Session} {st after : Store}

theorem find_eq_ok (found : find st id = .ok s) : st.find? id = some s := by
  unfold find at found
  split at found
  next own present => rw [present, Except.ok.inj found]
  next => contradiction

theorem checkSize_eq_ok {size : Nat} {u : Unit} (fits : svc.checkSize size = .ok u) :
    svc.admits size = true := by
  unfold checkSize at fits
  split at fits
  · assumption
  · contradiction

theorem create_eq_ok {name text : Text}
    (created : svc.create now id name text st = .ok (s, after)) :
    ∃ tree, svc.admits text.size = true ∧ svc.parser.parse text = .ok tree ∧
      s = ⟨id, name, tree, now, now⟩ ∧ after = st.insert s := by
  obtain ⟨_, fits, rest⟩ := bind_eq_ok created
  obtain ⟨tree, parsed, made⟩ := bind_eq_ok rest
  obtain ⟨rfl, rfl⟩ := Prod.mk.inj (Except.ok.inj made)
  exact ⟨tree, checkSize_eq_ok fits, mapError_eq_ok parsed, rfl, rfl⟩

theorem fetch_eq_ok (fetched : fetch now id st = .ok (s, after)) :
    ∃ old, st.find? id = some old ∧ s = { old with used := now } ∧ after = st.replace s := by
  obtain ⟨old, found, made⟩ := bind_eq_ok fetched
  obtain ⟨rfl, rfl⟩ := Prod.mk.inj (Except.ok.inj made)
  exact ⟨old, find_eq_ok found, rfl, rfl⟩

theorem close_eq_ok (closed : close id st = .ok (s, after)) :
    st.find? id = some s ∧ after = st.erase id := by
  obtain ⟨old, found, made⟩ := bind_eq_ok closed
  obtain ⟨rfl, rfl⟩ := Prod.mk.inj (Except.ok.inj made)
  exact ⟨find_eq_ok found, rfl⟩

theorem revise_eq_ok {tree next : Tree} {edits : List Edit} {text? : Option Text}
    (revised : svc.revise tree edits text? = .ok next) :
    ∃ text, svc.admits text.size = true ∧ svc.parser.reparse tree edits text = .ok next := by
  have checked {text : Text} (rest : (do
      svc.checkSize text.size
      (svc.parser.reparse tree edits text).mapError ofReparseError) = .ok next) :
      ∃ text, svc.admits text.size = true ∧ svc.parser.reparse tree edits text = .ok next := by
    obtain ⟨_, fits, reparsed⟩ := bind_eq_ok rest
    exact ⟨text, checkSize_eq_ok fits, mapError_eq_ok reparsed⟩
  cases text? with
  | some text => exact checked revised
  | none =>
      obtain ⟨text, _, rest⟩ := bind_eq_ok revised
      exact checked rest

theorem edit_eq_ok {edits : List Edit} {text? : Option Text}
    (edited : svc.edit now s edits text? st = .ok (t, after)) :
    ∃ tree text, svc.admits text.size = true ∧ svc.parser.reparse s.tree edits text = .ok tree ∧
      t = { s with tree, used := now } ∧ after = st.replace t := by
  obtain ⟨tree, revised, made⟩ := bind_eq_ok edited
  obtain ⟨text, fits, reparsed⟩ := revise_eq_ok revised
  obtain ⟨rfl, rfl⟩ := Prod.mk.inj (Except.ok.inj made)
  exact ⟨tree, text, fits, reparsed, rfl, rfl⟩

end Service

namespace Http

inductive Handled (svc : Service) (now : Instant) (newId : String) (body : Text) (st : Store) :
    Route → Response → Store → Prop
  | refused {route : Route} {response : Response} (other : response.status ≠ 200) :
      Handled svc now newId body st route response st
  | listed : Handled svc now newId body st .list (.ok (listJson st)) st
  | created {c : Creation} {tree : Tree} (read : Creation.read? body = some c)
      (fits : svc.admits c.text.size = true) (parsed : svc.parser.parse c.text = .ok tree) :
      Handled svc now newId body st .create (.ok (sessionJson ⟨newId, c.name, tree, now, now⟩))
        (st.insert ⟨newId, c.name, tree, now, now⟩)
  | fetched {id : String} {s : Session} (found : st.find? id = some s) :
      Handled svc now newId body st (.fetch id) (.ok (sessionJson { s with used := now }))
        (st.replace { s with used := now })
  | closed {id : String} {s : Session} (found : st.find? id = some s) :
      Handled svc now newId body st (.close id) (.ok (viewJson s)) (st.erase id)
  | edited {id : String} {s : Session} {edits : List Edit} {text : Text} {tree : Tree}
      (found : st.find? id = some s) (fits : svc.admits text.size = true)
      (reparsed : svc.parser.reparse s.tree edits text = .ok tree) :
      Handled svc now newId body st (.edit id) (.ok (sessionJson { s with tree, used := now }))
        (st.replace { s with tree, used := now })

theorem statusOf_ne_ok (e : SessionError) : statusOf e ≠ 200 := by
  cases e <;> simp [statusOf]

variable {svc : Service} {now : Instant} {newId : String} {st after : Store} {response : Response}

theorem handled_of_perform {body : Text} {route : Route}
    (done : perform svc now newId body st route = .ok (response, after)) :
    Handled svc now newId body st route response after := by
  cases route with
  | list =>
      obtain ⟨rfl, rfl⟩ := Prod.mk.inj (Except.ok.inj done)
      exact .listed
  | create =>
      rw [perform] at done
      split at done
      next c read =>
        obtain ⟨⟨s, next⟩, created, made⟩ := bind_eq_ok done
        obtain ⟨tree, fits, parsed, rfl, rfl⟩ := Service.create_eq_ok created
        obtain ⟨rfl, rfl⟩ := Prod.mk.inj (Except.ok.inj made)
        exact .created read fits parsed
      next => contradiction
  | fetch id =>
      obtain ⟨⟨s, next⟩, fetched, made⟩ := bind_eq_ok done
      obtain ⟨old, found, rfl, rfl⟩ := Service.fetch_eq_ok fetched
      obtain ⟨rfl, rfl⟩ := Prod.mk.inj (Except.ok.inj made)
      exact .fetched found
  | close id =>
      obtain ⟨⟨s, next⟩, closed, made⟩ := bind_eq_ok done
      obtain ⟨found, rfl⟩ := Service.close_eq_ok closed
      obtain ⟨rfl, rfl⟩ := Prod.mk.inj (Except.ok.inj made)
      exact .closed found
  | edit id =>
      obtain ⟨s, found, rest⟩ := bind_eq_ok done
      split at rest
      next c read =>
        obtain ⟨edits, _, rest⟩ := bind_eq_ok rest
        obtain ⟨⟨t, next⟩, edited, made⟩ := bind_eq_ok rest
        obtain ⟨tree, text, fits, reparsed, rfl, rfl⟩ := Service.edit_eq_ok edited
        obtain ⟨rfl, rfl⟩ := Prod.mk.inj (Except.ok.inj made)
        exact .edited (Service.find_eq_ok found) fits reparsed
      next => contradiction
  | notAllowed | notFound =>
      obtain ⟨rfl, rfl⟩ := Prod.mk.inj (Except.ok.inj done)
      exact .refused (by decide)

theorem handled_of_handle {req : Request}
    (answered : handle svc now newId req st = .ok (response, after)) :
    Handled svc now newId req.body st (Route.of req.method req.path) response after := by
  unfold handle at answered
  split at answered
  next done =>
    rw [Except.ok.inj answered] at done
    exact handled_of_perform done
  next e _ =>
    obtain ⟨rfl, rfl⟩ := Prod.mk.inj (Except.ok.inj answered)
    exact .refused (statusOf_ne_ok e)
  next => contradiction

end Http

end MqTree
