import LoxLexer.Command.Prompt
import LoxLexer.Proofs.Bytes
import LoxLexer.Proofs.FirstPiece

/-!
# The lines of the prompt

The prompt splits bytes and trims what it reads of them. When the bytes are those of a text, they are
split into the bytes of its rows, which end at line feeds (`splitLines_toUTF8`).
-/

namespace LoxLexer

/-! ## Bytes of texts -/

theorem byteArray_toList_loop (bytes : ByteArray) (i : Nat) (front : List UInt8) :
    ByteArray.toList.loop bytes i front = front.reverse ++ bytes.data.toList.drop i := by
  fun_induction ByteArray.toList.loop bytes i front with
  | case1 i front h ih =>
      have hlt : i < bytes.data.toList.length := h
      have hget : bytes.get! i = bytes.data.toList[i] := by
        rw [ByteArray.get!, Array.getElem_toList]
        exact getElem!_pos bytes.data i h
      rw [ih, List.drop_eq_getElem_cons hlt, List.reverse_cons, List.append_assoc, hget]
      rfl
  | case2 i front h =>
      have hge : bytes.data.toList.length ≤ i := Nat.le_of_not_lt h
      rw [List.drop_eq_nil_of_le hge, List.append_nil]

theorem byteArray_toList (bytes : ByteArray) : bytes.toList = bytes.data.toList :=
  byteArray_toList_loop bytes 0 []

def bytesOf (text : List Char) : List UInt8 := text.flatMap String.utf8EncodeChar

theorem bytesOf_append (a b : List Char) : bytesOf (a ++ b) = bytesOf a ++ bytesOf b :=
  List.flatMap_append

theorem data_utf8Encode (text : List Char) : text.utf8Encode.data = (bytesOf text).toArray := by
  rw [List.utf8Encode, List.data_toByteArray, bytesOf]

theorem bytesOf_toList (s : String) : bytesOf s.toList = s.toUTF8.toList := by
  rw [byteArray_toList, String.toUTF8_eq_toByteArray, ← String.utf8Encode_toList, data_utf8Encode]

theorem fromUTF8?_bytesOf (text : List Char) :
    String.fromUTF8? ⟨(bytesOf text).toArray⟩ = some (.ofList text) := by
  have hbytes : (⟨(bytesOf text).toArray⟩ : ByteArray) = (String.ofList text).toByteArray := by
    rw [← data_utf8Encode, String.toByteArray_ofList]
  rw [hbytes, String.fromUTF8?, dif_pos (String.ofList text).isValidUTF8]
  rfl

namespace Prompt

/-! ## Rows -/

/-- Something in front of the first row. -/
def prepend {α : Type} (front : List α) : List (List α) → List (List α)
  | [] => [front]
  | row :: rest => (front ++ row) :: rest

theorem prepend_append {α : Type} (a b : List α) (rs : List (List α)) :
    prepend (a ++ b) rs = prepend a (prepend b rs) := by
  cases rs with
  | nil => rfl
  | cons row rest => rw [prepend, prepend, prepend, List.append_assoc]

theorem map_bytesOf_prepend (front : List Char) (rs : List (List Char)) :
    (prepend front rs).map bytesOf = prepend (bytesOf front) (rs.map bytesOf) := by
  cases rs with
  | nil => rfl
  | cons row rest => rw [prepend, List.map_cons, bytesOf_append, List.map_cons, prepend]

/-- Cut behind each separator. -/
def rows {α : Type} [DecidableEq α] (sep : α) : List α → List (List α)
  | [] => []
  | a :: as => if a = sep then [a] :: rows sep as else prepend [a] (rows sep as)

section

variable {α : Type} [DecidableEq α] {sep : α}

theorem rows_append {front : List α} (hne : front ≠ []) (h : sep ∉ front) (as : List α) :
    rows sep (front ++ as) = prepend front (rows sep as) := by
  induction front with
  | nil => exact absurd rfl hne
  | cons a front ih =>
      rw [List.mem_cons, not_or] at h
      rw [List.cons_append, rows, if_neg (Ne.symm h.1)]
      cases front with
      | nil => rfl
      | cons b front =>
          rw [ih (List.cons_ne_nil _ _) h.2, ← prepend_append]
          rfl

theorem rows_last {body : List α} (hne : body ≠ []) (h : sep ∉ body) : rows sep body = [body] := by
  have happend := rows_append hne h []
  rwa [List.append_nil] at happend

theorem rows_sep {body : List α} (h : sep ∉ body) (rest : List α) :
    rows sep (body ++ sep :: rest) = (body ++ [sep]) :: rows sep rest := by
  have hsep : rows sep (sep :: rest) = [sep] :: rows sep rest := if_pos rfl
  cases body with
  | nil => exact hsep
  | cons a as =>
      rw [rows_append (List.cons_ne_nil _ _) h, hsep]
      rfl

end

theorem splitLines_eq (bytes : List UInt8) : splitLines bytes = rows 10 bytes := by
  induction bytes with
  | nil => rfl
  | cons byte bytes ih =>
      rw [splitLines, List.foldr_cons, ← splitLines, ih, rows]
      cases rows 10 bytes with
      | nil => exact (ite_self _).symm
      | cons line rest => rfl

/-- The rows of a text's bytes are the bytes of the text's rows. -/
theorem rows_bytesOf (text : List Char) :
    rows 10 (bytesOf text) = (rows '\n' text).map bytesOf := by
  induction text with
  | nil => rfl
  | cons c cs ih =>
      have hbytes : bytesOf (c :: cs) = String.utf8EncodeChar c ++ bytesOf cs := rfl
      rw [hbytes, rows]
      by_cases hc : c = '\n'
      · subst hc
        have hbreak : rows 10 ([] ++ 10 :: bytesOf cs) = ([] ++ [10]) :: rows 10 (bytesOf cs) :=
          rows_sep List.not_mem_nil _
        rw [if_pos rfl, List.map_cons, ← ih]
        exact hbreak
      · have hfree : 10 ∉ String.utf8EncodeChar c := by
          rw [← List.count_eq_zero, count_utf8EncodeChar, if_neg hc]
        have hone : bytesOf [c] = String.utf8EncodeChar c := List.append_nil _
        rw [if_neg hc, rows_append String.utf8EncodeChar_ne_nil hfree, ih, ← hone,
          map_bytesOf_prepend]

/-- A text is empty, or a row without a line feed, or begins with a row that has one. -/
@[elab_as_elim]
theorem rows_induction {motive : List Char → Prop} (nil : motive [])
    (last : ∀ body, body ≠ [] → '\n' ∉ body → motive body)
    (newline : ∀ body rest, '\n' ∉ body → motive rest → motive (body ++ '\n' :: rest))
    (text : List Char) : motive text := by
  have hbody := Cut.not_mem_takeWhile_ne '\n' text
  have htext := List.takeWhile_append_dropWhile (p := (· != '\n')) (l := text)
  cases hrest : text.dropWhile (· != '\n') with
  | nil =>
      rw [hrest, List.append_nil] at htext
      rw [htext] at hbody
      by_cases hne : text = []
      · rw [hne]
        exact nil
      · exact last text hne hbody
  | cons c rest =>
      have hc := List.head?_dropWhile_not (· != '\n') text
      simp only [hrest, List.head?_cons, bne_eq_false_iff_eq] at hc
      have hshort : rest.length < text.length := by
        have hlength := congrArg List.length htext
        simp only [hrest, List.length_append, List.length_cons] at hlength
        omega
      rw [← htext, hrest, hc]
      exact newline _ rest hbody (rows_induction nil last newline rest)
termination_by text.length

/-! ## Trimmed rows -/

theorem trimLineEnd_newline (body : List Char) :
    trimLineEnd (.ofList (body ++ ['\n'])) = trimLineEnd (.ofList body) := by
  simp [trimLineEnd]

/-- Only blanks are trimmed. -/
theorem exists_trimLineEnd (body : List Char) : ∃ tail,
    body = (trimLineEnd (.ofList body)).toList ++ tail ∧ ∀ c ∈ tail, c ∈ blanks := by
  have hends := List.takeWhile_append_dropWhile (p := fun c => c == '\n' || c == '\r')
    (l := body.reverse)
  refine ⟨(body.reverse.takeWhile fun c => c == '\n' || c == '\r').reverse, ?_, fun c hc => ?_⟩
  · rw [trimLineEnd, String.toList_ofList, String.toList_ofList, ← List.reverse_append, hends,
      List.reverse_reverse]
  · have hend := List.mem_takeWhile_imp (List.mem_reverse.1 hc)
    simp only [Bool.or_eq_true, beq_iff_eq] at hend
    rcases hend with rfl | rfl <;> decide

/-! ## The lines of a text -/

/-- The lines of a text, each without the line feeds and carriage returns at its end. -/
def lines (source : String) : List String :=
  (rows '\n' source.toList).map fun row => trimLineEnd (.ofList row)

theorem splitLines_toUTF8 (source : String) :
    splitLines source.toUTF8.toList = (rows '\n' source.toList).map bytesOf := by
  rw [← bytesOf_toList, splitLines_eq, rows_bytesOf]

end Prompt

end LoxLexer
