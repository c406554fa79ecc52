import LoxLexer.Proofs.Delimited
import LoxLexer.Proofs.Messages
import Mathlib.Logic.Function.Basic

/-!
# Filling a template is substitution

The placeholders of a template are filled one number after the other, each in the text that the last
one left. If neither the text between the placeholders nor an argument has an opening brace, then no
placeholder comes into being on the way, none is lost, and none is taken for another one. So every
argument stands where its placeholder stood, whatever the order was (`fill_substitutes`).
-/

namespace LoxLexer.Template

/-! ## Outlines -/

/-- A text with holes in it: what stands in front of all holes, and for each hole its number and
what stands behind it. -/
structure Outline where
  front : List Char
  holes : List (Nat × List Char)

/-- The text of an outline when something is put into each hole. -/
def Outline.write (o : Outline) (put : Nat → List Char) : List Char :=
  o.front ++ o.holes.flatMap fun hole => put hole.1 ++ hole.2

/-- The text around the holes has no opening brace. -/
structure Outline.Plain (o : Outline) : Prop where
  front : '{' ∉ o.front
  behind : ∀ hole ∈ o.holes, '{' ∉ hole.2

/-- What belongs into a hole: the argument of that number, or else the placeholder. -/
def argument (args : List String) (i : Nat) : List Char :=
  match args[i]? with
  | some arg => arg.toList
  | none => placeholder i

/-! ## One placeholder -/

/-- The closing brace keeps a placeholder from being the beginning of a longer one. -/
theorem eq_of_placeholder_front {i j : Nat} {rest : List Char}
    (h : placeholder i <+: placeholder j ++ rest) : i = j := by
  obtain ⟨more, hmore⟩ := h
  have hdigits : Nat.toDigits 10 i ++ '}' :: more = Nat.toDigits 10 j ++ '}' :: rest := by
    simpa [placeholder] using hmore
  have hcut := mark_cut (not_mem_toDigits i rfl) (not_mem_toDigits j rfl) hdigits
  exact toDigits_injective hcut.1

theorem replaceAll_placeholder_ne {i j : Nat} (h : i ≠ j) (new rest : List Char) :
    replaceAll (placeholder i) new (placeholder j ++ rest) =
      placeholder j ++ replaceAll (placeholder i) new rest := by
  have hfront : ¬(placeholder i ≠ [] ∧ (placeholder i).isPrefixOf (placeholder j ++ rest)) := by
    rintro ⟨_, hprefix⟩
    exact h (eq_of_placeholder_front (List.isPrefixOf_iff_prefix.1 hprefix))
  -- Behind its opening brace, the other placeholder has none.
  have htail : '{' ∉ Nat.toDigits 10 j ++ ['}'] := by
    simp [not_mem_toDigits j (c := '{') rfl]
  have hsplit : placeholder j ++ rest = '{' :: (Nat.toDigits 10 j ++ ['}'] ++ rest) := rfl
  rw [hsplit] at hfront ⊢
  rw [replaceAll, if_neg hfront]
  exact congrArg ('{' :: ·) (replaceAll_append_of_not_mem htail rest)

/-- What stands in the holes while placeholders are filled. -/
def Filling (put : Nat → List Char) : Prop := ∀ j, put j = placeholder j ∨ '{' ∉ put j

theorem Filling.placeholder : Filling placeholder := fun _ => .inl rfl

theorem Filling.update {put : Nat → List Char} (h : Filling put) (i : Nat) {arg : List Char}
    (harg : '{' ∉ arg) : Filling (Function.update put i arg) := by
  intro j
  by_cases hj : j = i
  · subst hj
    rw [Function.update_self]
    exact .inr harg
  · rw [Function.update_of_ne hj]
    exact h j

section

variable {put : Nat → List Char} (hput : Filling put) {i : Nat} (hi : put i = placeholder i)
  (arg : List Char)

include hput hi

theorem replaceAll_hole (j : Nat) (rest : List Char) :
    replaceAll (placeholder i) arg (put j ++ rest) =
      Function.update put i arg j ++ replaceAll (placeholder i) arg rest := by
  by_cases hj : j = i
  · rw [hj, hi, Function.update_self]
    exact replaceAll_append_self _ _ _ (List.cons_ne_nil _ _)
  · rw [Function.update_of_ne hj]
    rcases hput j with hopen | hfilled
    · rw [hopen]
      exact replaceAll_placeholder_ne (Ne.symm hj) _ _
    · exact replaceAll_append_of_not_mem hfilled rest

theorem replaceAll_holes {holes : List (Nat × List Char)} (h : ∀ hole ∈ holes, '{' ∉ hole.2) :
    replaceAll (placeholder i) arg (holes.flatMap fun hole => put hole.1 ++ hole.2) =
      holes.flatMap fun hole => Function.update put i arg hole.1 ++ hole.2 := by
  induction holes with
  | nil => simp [replaceAll]
  | cons hole holes ih =>
      obtain ⟨htext, hholes⟩ := List.forall_mem_cons.1 h
      rw [List.flatMap_cons, List.flatMap_cons, ← ih hholes, List.append_assoc, List.append_assoc,
        replaceAll_hole hput hi]
      exact congrArg _ (replaceAll_append_of_not_mem htext _)

/-- One number is filled in its own holes and nowhere else. -/
theorem replaceAll_write {o : Outline} (ho : o.Plain) :
    replaceAll (placeholder i) arg (o.write put) = o.write (Function.update put i arg) := by
  rw [Outline.write, Outline.write, ← replaceAll_holes hput hi arg ho.behind]
  exact replaceAll_append_of_not_mem ho.front _

end

/-! ## All placeholders -/

/-- The text after arguments have been filled in, each with its number, in the order of the list. -/
def fillInOrder (order : List (String × Nat)) (text : List Char) : List Char :=
  order.foldl (fun soFar (arg, i) => replaceAll (placeholder i) arg.toList soFar) text

theorem fill_eq (text : List Char) (args : List String) :
    fill (.ofList text) args = .ofList (fillInOrder args.zipIdx text) := by
  rw [fill, String.toList_ofList]
  rfl

/-- Filling arguments with different numbers fills the holes of these numbers. -/
theorem fillInOrder_write {o : Outline} (ho : o.Plain) {order : List (String × Nat)}
    (hnumbers : (order.map Prod.snd).Nodup) (hfree : ∀ p ∈ order, '{' ∉ p.1.toList)
    {put done : Nat → List Char} (hput : Filling put)
    (hopen : ∀ p ∈ order, put p.2 = placeholder p.2)
    (hdone : ∀ p ∈ order, done p.2 = p.1.toList)
    (hrest : ∀ j, j ∉ order.map Prod.snd → done j = put j) :
    fillInOrder order (o.write put) = o.write done := by
  induction order generalizing put with
  | nil =>
      have hsame : done = put := funext fun j => hrest j List.not_mem_nil
      rw [hsame]
      rfl
  | cons p order ih =>
      obtain ⟨arg, i⟩ := p
      obtain ⟨hnew, hnumbers⟩ := List.nodup_cons.1 hnumbers
      rw [List.forall_mem_cons] at hfree hopen hdone
      have hstep : fillInOrder ((arg, i) :: order) (o.write put) =
          fillInOrder order (o.write (Function.update put i arg.toList)) :=
        congrArg (fillInOrder order) (replaceAll_write hput hopen.1 arg.toList ho)
      rw [hstep]
      refine ih hnumbers hfree.2 (hput.update i hfree.1) (fun q hq => ?_) hdone.2 fun j hj => ?_
      · have hne : q.2 ≠ i := ne_of_mem_of_not_mem (List.mem_map_of_mem hq) hnew
        rw [Function.update_of_ne hne]
        exact hopen.2 q hq
      · by_cases hji : j = i
        · subst hji
          rw [Function.update_self]
          exact hdone.1
        · rw [Function.update_of_ne hji]
          exact hrest j (by simp [hji, hj])

section

variable {o : Outline} {args : List String} (ho : o.Plain)
  (hargs : ∀ arg ∈ args, '{' ∉ arg.toList) {order : List (String × Nat)}
  (horder : order.Perm args.zipIdx)

include ho hargs horder

/-- When some arguments have been filled in, they stand in their holes, and the other placeholders
are still there. -/
theorem fillInOrder_front {done : List (String × Nat)} (hdone : done <+: order) :
    fillInOrder done (o.write placeholder) =
      o.write fun i => if i ∈ done.map Prod.snd then argument args i else placeholder i := by
  have hnumbers : (order.map Prod.snd).Nodup := by
    rw [(horder.map Prod.snd).nodup_iff, List.zipIdx_map_snd]
    exact List.nodup_range'
  have harg {p : String × Nat} (hp : p ∈ done) : args[p.2]? = some p.1 :=
    List.mem_zipIdx_iff_getElem?.1 (horder.mem_iff.1 (hdone.subset hp))
  refine fillInOrder_write ho (hnumbers.sublist (hdone.sublist.map Prod.snd)) (fun p hp => ?_)
    Filling.placeholder (fun _ _ => rfl) (fun p hp => ?_) fun j hj => if_neg hj
  · exact hargs p.1 (List.mem_of_getElem? (harg hp))
  · rw [if_pos (List.mem_map_of_mem hp), argument, harg hp]

theorem fillInOrder_all : fillInOrder order (o.write placeholder) = o.write (argument args) := by
  have hput : (fun i => if i ∈ order.map Prod.snd then argument args i else placeholder i) =
      argument args := by
    funext i
    split
    · rfl
    · rename_i hi
      -- A number that is not filled has no argument.
      rw [(horder.map Prod.snd).mem_iff, List.zipIdx_map_snd, List.mem_range'_1] at hi
      rw [argument, List.getElem?_eq_none (by omega)]
  rw [fillInOrder_front ho hargs horder (List.prefix_refl order), hput]

end

/-- The template of the outline is filled by putting the arguments into the holes. In whatever order
this is done, at each stage the arguments filled in so far stand in their holes and nothing else is
changed. -/
structure Substitutes (o : Outline) (args : List String) : Prop where
  fill : fill (.ofList (o.write placeholder)) args = .ofList (o.write (argument args))
  stage : ∀ order, order.Perm args.zipIdx → ∀ done, done <+: order →
    fillInOrder done (o.write placeholder) =
      o.write fun i => if i ∈ done.map Prod.snd then argument args i else placeholder i
  any_order : ∀ order, order.Perm args.zipIdx →
    fillInOrder order (o.write placeholder) = o.write (argument args)

/-- Filling the placeholders one after the other is filling them all at once. -/
theorem fill_substitutes (o : Outline) (args : List String) (ho : o.Plain)
    (hargs : ∀ arg ∈ args, '{' ∉ arg.toList) : Substitutes o args where
  fill := by rw [fill_eq, fillInOrder_all ho hargs (.refl _)]
  stage _ horder _ hdone := fillInOrder_front ho hargs horder hdone
  any_order _ horder := fillInOrder_all ho hargs horder

/-- Numbers in no order, one of them twice, and one that begins like another; the arguments look
like numbers. -/
theorem fill_substitutes_digits :
    Outline.Plain ⟨['x'], [(1, ['y']), (10, []), (0, ['0']), (1, [])]⟩ ∧
      (∀ arg ∈ ["10", "0"], '{' ∉ arg.toList) ∧
      fill (.ofList (['x'] ++ placeholder 1 ++ ['y'] ++ placeholder 10 ++ placeholder 0 ++ ['0'] ++
        placeholder 1)) ["10", "0"] = .ofList ("x0y".toList ++ placeholder 10 ++ "1000".toList) := by
  have ho : Outline.Plain ⟨['x'], [(1, ['y']), (10, []), (0, ['0']), (1, [])]⟩ :=
    ⟨by decide, by decide⟩
  have hargs : ∀ arg ∈ ["10", "0"], '{' ∉ arg.toList := by decide
  exact ⟨ho, hargs, (fill_substitutes _ _ ho hargs).fill⟩

end LoxLexer.Template
