import LoxLexer.Scan.LexicalError

/-!
# The messages of lexical errors

An argument is put where its placeholder stands, and text without an opening brace stays. The
diagnostic of a lexical error has the error's own message, line and span.
-/

namespace LoxLexer

namespace Template

theorem replaceAll_append_of_not_mem {o : Char} {old new a : List Char} (h : o ∉ a)
    (b : List Char) : replaceAll (o :: old) new (a ++ b) = a ++ replaceAll (o :: old) new b := by
  induction a with
  | nil => rfl
  | cons c cs ih =>
      have hc : (o == c) = false := by
        rw [beq_eq_false_iff_ne]
        rintro rfl
        exact h List.mem_cons_self
      have hfront : (o :: old).isPrefixOf (c :: (cs ++ b)) = false := by
        rw [List.isPrefixOf, hc, Bool.false_and]
      rw [List.cons_append, replaceAll, if_neg (by rw [hfront]; simp),
        ih (fun hm => h (List.mem_cons_of_mem _ hm)), List.cons_append]

theorem replaceAll_append_self (old new rest : List Char) (h : old ≠ []) :
    replaceAll old new (old ++ rest) = new ++ replaceAll old new rest := by
  cases old with
  | nil => exact absurd rfl h
  | cons c cs =>
      rw [List.cons_append, replaceAll, if_pos ⟨h, by simp [List.isPrefixOf]⟩]
      simp

theorem fill_unexpectedCharacter (c : Char) :
    fill unexpectedCharacter.text [String.singleton c] =
      "Unexpected character: " ++ String.singleton c := by
  have hplace : placeholder 0 = ['{', '0', '}'] := by decide
  have htext : unexpectedCharacter.text.toList =
      "Unexpected character: ".toList ++ (['{', '0', '}'] ++ []) := by decide
  have hfree : '{' ∉ "Unexpected character: ".toList := by decide
  simp only [fill, List.zipIdx_cons, List.zipIdx_nil, List.foldl_cons, List.foldl_nil, htext,
    hplace]
  rw [replaceAll_append_of_not_mem hfree, replaceAll_append_self _ _ _ (by decide), replaceAll,
    List.append_nil, String.ofList_append, String.ofList_toList, String.ofList_toList]

end Template

namespace LexicalError

theorem diagnostic_unexpectedCharacter (line : Nat) (c : Char) (span : Span) :
    (unexpectedCharacter line c span).diagnostic =
      ⟨line, some span, "Unexpected character: " ++ String.singleton c, 1001, .error⟩ := by
  rw [← Template.fill_unexpectedCharacter c]
  rfl

theorem diagnostic_unterminatedString (line : Nat) (span : Span) :
    (unterminatedString line span).diagnostic =
      ⟨line, some span, "Unterminated string.", 1002, .error⟩ := by
  simp only [diagnostic, Diagnostic.ofTemplate, Template.fill, List.zipIdx_nil, List.foldl_nil,
    String.ofList_toList]
  rfl

end LexicalError

end LoxLexer
