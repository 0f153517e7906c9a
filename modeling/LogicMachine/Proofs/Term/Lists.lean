import LogicMachine.Term.Printer

/-!
# Lists and their parts

A chain of list cells is split into its items and the term that ends it.  The
split undoes the construction and is undone by it.  A list is written as its
parts: the items between brackets, and an ending other than the empty list
after a bar.
-/

namespace LogicMachine

namespace Term

@[simp]
theorem listWithTail_nil (tail : Term) : listWithTail [] tail = tail := rfl

@[simp]
theorem listWithTail_cons (item : Term) (items : List Term) (tail : Term) :
    listWithTail (item :: items) tail = cell item (listWithTail items tail) :=
  rfl

@[simp]
theorem listParts_cell (head tail : Term) :
    (cell head tail).listParts =
      (head :: tail.listParts.1, tail.listParts.2) := by
  rw [cell, listParts, if_pos rfl]

/-- The items come first, and what follows them is split in its turn. -/
theorem listParts_listWithTail (items : List Term) (tail : Term) :
    (listWithTail items tail).listParts =
      (items ++ tail.listParts.1, tail.listParts.2) := by
  induction items with
  | nil => rfl
  | cons item rest ih =>
      rw [listWithTail_cons, listParts_cell, ih, List.cons_append]

/-- Nothing is lost when a term is split. -/
theorem listWithTail_listParts (term : Term) :
    listWithTail term.listParts.1 term.listParts.2 = term := by
  fun_induction listParts term with
  | case1 head tail items ending parts ih =>
      rw [parts] at ih
      rw [listWithTail_cons, ih, cell]
  | case2 functor head tail different => rfl
  | case3 term other => rfl

/-- What ends a list is no list cell. -/
theorem listParts_ending (term : Term) :
    term.listParts.2.listParts = ([], term.listParts.2) := by
  fun_induction listParts term with
  | case1 head tail items ending parts ih => rwa [parts] at ih
  | case2 functor head tail different => rw [listParts, if_neg different]
  | case3 term other => rw [listParts]; exact other

/-- The empty list has no items in either of its two forms. -/
theorem listParts_of_isEmptyList {term : Term}
    (isEmpty : term.isEmptyList = true) : term.listParts = ([], term) := by
  cases term with
  | atom name => rfl
  | var name => rfl
  | compound functor args =>
      cases args with
      | nil => rfl
      | cons first rest => cases isEmpty

theorem listItems?_eq (term : Term) :
    term.listItems? =
      if term.listParts.2.isEmptyList then some term.listParts.1 else none :=
  rfl

/-- The proper lists are the chains that end in a form of the empty list. -/
theorem listItems?_eq_some_iff {term : Term} {items : List Term} :
    term.listItems? = some items ↔
      ∃ ending, ending.isEmptyList = true ∧
        term = listWithTail items ending := by
  rw [listItems?_eq]
  constructor
  · intro found
    split at found
    case isTrue isEmpty =>
      cases found
      exact ⟨_, isEmpty, (listWithTail_listParts term).symm⟩
    case isFalse => cases found
  · rintro ⟨ending, isEmpty, rfl⟩
    simp only [listParts_listWithTail, listParts_of_isEmptyList isEmpty,
      List.append_nil, if_pos isEmpty]

theorem listItems?_list (items : List Term) :
    (list items).listItems? = some items :=
  listItems?_eq_some_iff.mpr ⟨emptyList, rfl, rfl⟩

/-- A term that is no list cell is written as it is, after a bar if it ends a
list. -/
theorem renderAt_of_listParts {term : Term}
    (whole : term.listParts = ([], term)) (position : Position) :
    term.renderAt position =
      place position term.isEmptyList term.render := by
  cases term with
  | atom name => simp only [render, renderAt]; rfl
  | var name => simp only [render, renderAt]; rfl
  | compound functor args =>
      match args with
      | [] => simp only [render, renderAt]; rfl
      | [argument] =>
          simp only [render, renderAt]
          split <;> rfl
      | [head, tail] =>
          by_cases isCell : functor = listFunctor
          · rw [listParts, if_pos isCell] at whole
            cases whole
          · simp only [render, renderAt, if_neg isCell]
            rfl
      | first :: second :: third :: rest =>
          simp only [render, renderAt]
          rfl

theorem renderAt_tail_cell (head tail : Term) :
    (cell head tail).renderAt .tail =
      ", " ++ (head.render ++ tail.renderAt .tail) := by
  rw [cell, renderAt, if_pos rfl, render]

/-- The rest of a list is written as its items and then its ending. -/
theorem render_append_renderAt_tail (head : Term) (items : List Term)
    {ending : Term} (whole : ending.listParts = ([], ending)) :
    head.render ++ (listWithTail items ending).renderAt .tail =
      String.intercalate ", " ((head :: items).map render) ++
        place .tail ending.isEmptyList ending.render := by
  induction items generalizing head with
  | nil =>
      rw [listWithTail_nil, renderAt_of_listParts whole, List.map_singleton,
        String.intercalate_singleton]
  | cons next rest ih =>
      rw [listWithTail_cons, renderAt_tail_cell, ih, List.map_cons,
        List.map_cons, List.map_cons, String.intercalate_cons_cons]
      simp only [String.append_assoc]

/-- A list is written as its parts. -/
theorem render_cell (head tail : Term) :
    (cell head tail).render =
      let (items, ending) := (cell head tail).listParts
      "[" ++ String.intercalate ", " (items.map render) ++
        (if ending.isEmptyList then "" else " | " ++ ending.render) ++ "]" := by
  have written := render_append_renderAt_tail head tail.listParts.1
    tail.listParts_ending
  rw [listWithTail_listParts] at written
  calc (cell head tail).render
      = "[" ++ (head.render ++ tail.renderAt .tail) ++ "]" := by
        rw [cell, render, renderAt, if_pos rfl, render]
    _ = "[" ++
          (String.intercalate ", " ((head :: tail.listParts.1).map render) ++
            place .tail tail.listParts.2.isEmptyList
              tail.listParts.2.render) ++ "]" := by rw [written]
    _ = _ := by
        rw [listParts_cell]
        simp only [String.append_assoc]
        rfl

example :
    (listWithTail [.atom "a", list [.var "X"]] (.var "T")).render =
      "[a, [X] | T]" := by
  rfl

end Term

end LogicMachine
