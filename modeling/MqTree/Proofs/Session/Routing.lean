import Mathlib.Tactic.SplitIfs
import MqTree.Session.Http

namespace MqTree.Http

structure Named (id : String) : Prop where
  nonempty : id ≠ ""
  slashless : '/' ∉ id.toList
  colonless : ':' ∉ id.toList

inductive Asked : String → String → Route → Prop
  | list : Asked "GET" basePath .list
  | create : Asked "POST" basePath .create
  | fetch {id : String} (named : Named id) : Asked "GET" (basePath ++ "/" ++ id) (.fetch id)
  | close {id : String} (named : Named id) : Asked "DELETE" (basePath ++ "/" ++ id) (.close id)
  | edit {id : String} (slashless : '/' ∉ id.toList) :
      Asked "POST" (basePath ++ "/" ++ id ++ ":edit") (.edit id)
  | notAllowed (method path : String) : Asked method path .notAllowed
  | notFound (method path : String) : Asked method path .notFound

variable {method path id custom : String} {cs : List Char}

theorem resource?_eq_some :
    resource? path = some cs ↔ path.toList = (basePath ++ "/").toList ++ cs := by
  rw [resource?]
  constructor
  · intro found
    split at found
    next leads =>
      obtain ⟨rest, whole⟩ := List.isPrefixOf_iff_prefix.mp leads
      rw [← whole, List.drop_left] at found
      rw [← whole, Option.some.inj found]
    next => contradiction
  · intro whole
    rw [whole, if_pos (List.isPrefixOf_iff_prefix.mpr (List.prefix_append _ cs)), List.drop_left]

theorem customMethod?_eq_none (colonless : ':' ∉ cs) : customMethod? cs = none := by
  rw [customMethod?, if_neg (by simpa using colonless)]

/-- The colon that counts is the last one. -/
theorem customMethod?_append (before : List Char) {behind : List Char} (last : ':' ∉ behind) :
    customMethod? (before ++ ':' :: behind) = some (String.ofList before, String.ofList behind) := by
  have other : ∀ c ∈ behind.reverse, (c != ':') = true := by
    intro c member
    refine bne_iff_ne.mpr fun same => last ?_
    rw [← same]
    exact List.mem_reverse.mp member
  have taken : (before ++ ':' :: behind).reverse.takeWhile (· != ':') = behind.reverse := by
    rw [List.reverse_append, List.reverse_cons, List.append_assoc,
      List.takeWhile_append_of_pos other, List.singleton_append,
      List.takeWhile_cons_of_neg (by decide), List.append_nil]
  have size : (before ++ ':' :: behind).length - behind.length - 1 = before.length := by
    rw [List.length_append, List.length_cons]
    omega
  rw [customMethod?, if_pos (by simp), taken, List.reverse_reverse]
  simp only [size, List.take_left]

theorem exists_last_colon (colon : ':' ∈ cs) :
    ∃ before behind, cs = before ++ ':' :: behind ∧ ':' ∉ behind := by
  obtain ⟨front, rest, split, first⟩ := List.eq_append_cons_of_mem (List.mem_reverse.mpr colon)
  refine ⟨rest.reverse, front.reverse, ?_, by simpa using first⟩
  rw [← List.reverse_reverse cs, split]
  simp

namespace Route

theorem of_basePath (method : String) :
    Route.of method basePath =
      if method = "GET" then .list else if method = "POST" then .create else .notAllowed := by
  rw [Route.of, if_pos rfl]

theorem ne_basePath (whole : path.toList = (basePath ++ "/").toList ++ cs) : path ≠ basePath := by
  rintro rfl
  have lengths := congrArg List.length whole
  simp at lengths

theorem of_named (named : Named id) (method : String) :
    Route.of method (basePath ++ "/" ++ id) =
      if method = "GET" then .fetch id else if method = "DELETE" then .close id else .notAllowed := by
  have whole : (basePath ++ "/" ++ id).toList = (basePath ++ "/").toList ++ id.toList :=
    String.toList_append
  have nonempty : id.toList ≠ [] := fun empty => named.nonempty (String.toList_eq_nil_iff.mp empty)
  rw [Route.of, if_neg (ne_basePath whole), resource?_eq_some.mpr whole]
  simp [nonempty, named.slashless, customMethod?_eq_none named.colonless]

theorem of_custom (slashless : '/' ∉ id.toList) (own : '/' ∉ custom.toList)
    (last : ':' ∉ custom.toList) (method : String) :
    Route.of method (basePath ++ "/" ++ id ++ ":" ++ custom) =
      if custom = "edit" ∧ method = "POST" then .edit id else .notAllowed := by
  have whole : (basePath ++ "/" ++ id ++ ":" ++ custom).toList =
      (basePath ++ "/").toList ++ (id.toList ++ ':' :: custom.toList) := by
    simp
  rw [Route.of, if_neg (ne_basePath whole), resource?_eq_some.mpr whole]
  simp [slashless, own, customMethod?_append _ last]

theorem custom_edit (id : String) :
    basePath ++ "/" ++ id ++ ":" ++ "edit" = basePath ++ "/" ++ id ++ ":edit" :=
  String.append_assoc

/-- Every path is that of all sessions, of one, or of something to do with one,
or leads nowhere. -/
theorem path_cases (path : String) :
    path = basePath ∨ (∃ id, Named id ∧ path = basePath ++ "/" ++ id) ∨
    (∃ id custom : String, '/' ∉ id.toList ∧ '/' ∉ custom.toList ∧ ':' ∉ custom.toList ∧
      path = basePath ++ "/" ++ id ++ ":" ++ custom) ∨
    ∀ method, Route.of method path = .notFound := by
  by_cases base : path = basePath
  · exact .inl base
  cases found : resource? path with
  | none => exact .inr (.inr (.inr fun method => by rw [Route.of, if_neg base, found]))
  | some cs =>
      have whole := resource?_eq_some.mp found
      by_cases bad : cs = [] ∨ '/' ∈ cs
      · refine .inr (.inr (.inr fun method => ?_))
        rw [Route.of, if_neg base, found]
        exact if_pos (by simpa using bad)
      obtain ⟨nonempty, slashless⟩ := not_or.mp bad
      by_cases colon : ':' ∈ cs
      · obtain ⟨before, behind, rfl, last⟩ := exists_last_colon colon
        have clear : '/' ∉ before := fun member => slashless (List.mem_append_left _ member)
        have own : '/' ∉ behind := fun member =>
          slashless (List.mem_append_right _ (List.mem_cons_of_mem _ member))
        refine .inr (.inr (.inl ⟨String.ofList before, String.ofList behind, ?_, ?_, ?_, ?_⟩))
        · rwa [String.toList_ofList]
        · rwa [String.toList_ofList]
        · rwa [String.toList_ofList]
        · rw [← String.toList_inj, whole]
          simp
      · refine .inr (.inl ⟨String.ofList cs, ⟨?_, ?_, ?_⟩, ?_⟩)
        · simpa using nonempty
        · rwa [String.toList_ofList]
        · rwa [String.toList_ofList]
        · rw [← String.toList_inj, whole]
          simp

theorem asked_of (method path : String) : Asked method path (Route.of method path) := by
  rcases path_cases path with rfl | ⟨id, named, rfl⟩ | ⟨id, custom, clear, own, last, rfl⟩ | nowhere
  · rw [of_basePath]
    split_ifs with gets posts
    · exact gets ▸ .list
    · exact posts ▸ .create
    · exact .notAllowed _ _
  · rw [of_named named]
    split_ifs with gets deletes
    · exact gets ▸ .fetch named
    · exact deletes ▸ .close named
    · exact .notAllowed _ _
  · rw [of_custom clear own last]
    split_ifs with edits
    · obtain ⟨rfl, rfl⟩ := edits
      rw [custom_edit]
      exact .edit clear
    · exact .notAllowed _ _
  · rw [nowhere]
    exact .notFound _ _

theorem of_eq_list : Route.of method path = .list ↔ method = "GET" ∧ path = basePath := by
  constructor
  · intro route
    cases route ▸ asked_of method path with
    | list => exact ⟨rfl, rfl⟩
  · rintro ⟨rfl, rfl⟩
    rw [of_basePath, if_pos rfl]

theorem of_eq_create : Route.of method path = .create ↔ method = "POST" ∧ path = basePath := by
  constructor
  · intro route
    cases route ▸ asked_of method path with
    | create => exact ⟨rfl, rfl⟩
  · rintro ⟨rfl, rfl⟩
    rw [of_basePath, if_neg (by decide), if_pos rfl]

theorem of_eq_fetch :
    Route.of method path = .fetch id ↔
      method = "GET" ∧ path = basePath ++ "/" ++ id ∧ Named id := by
  constructor
  · intro route
    cases route ▸ asked_of method path with
    | fetch named => exact ⟨rfl, rfl, named⟩
  · rintro ⟨rfl, rfl, named⟩
    rw [of_named named, if_pos rfl]

theorem of_eq_close :
    Route.of method path = .close id ↔
      method = "DELETE" ∧ path = basePath ++ "/" ++ id ∧ Named id := by
  constructor
  · intro route
    cases route ▸ asked_of method path with
    | close named => exact ⟨rfl, rfl, named⟩
  · rintro ⟨rfl, rfl, named⟩
    rw [of_named named, if_neg (by decide), if_pos rfl]

theorem of_eq_edit :
    Route.of method path = .edit id ↔
      method = "POST" ∧ path = basePath ++ "/" ++ id ++ ":edit" ∧ '/' ∉ id.toList := by
  constructor
  · intro route
    cases route ▸ asked_of method path with
    | edit clear => exact ⟨rfl, rfl, clear⟩
  · rintro ⟨rfl, rfl, clear⟩
    have own : '/' ∉ "edit".toList := by decide
    have last : ':' ∉ "edit".toList := by decide
    rw [← custom_edit, of_custom clear own last, if_pos ⟨rfl, rfl⟩]

end Route

end MqTree.Http
