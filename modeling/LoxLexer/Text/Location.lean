/-!
# Locations

Where a point of the text stands: the bytes before it, and its line. A location moves over a piece
of text by that piece's bytes and line breaks, so moving over two pieces is moving over their
concatenation.
-/

namespace LoxLexer

/-- The UTF-8 bytes of the characters. -/
def byteSize (text : List Char) : Nat := text.foldl (fun size c => size + c.utf8Size) 0

theorem foldl_utf8Size (size : Nat) (text : List Char) :
    text.foldl (fun size c => size + c.utf8Size) size = size + byteSize text := by
  induction text generalizing size with
  | nil => rfl
  | cons c text ih =>
    rw [byteSize, List.foldl_cons, List.foldl_cons, ih, ih (0 + c.utf8Size)]
    omega

@[simp] theorem byteSize_nil : byteSize [] = 0 := rfl

@[simp] theorem byteSize_cons (c : Char) (text : List Char) :
    byteSize (c :: text) = c.utf8Size + byteSize text := by
  rw [byteSize, List.foldl_cons, foldl_utf8Size, Nat.zero_add]

@[simp] theorem byteSize_append (a b : List Char) : byteSize (a ++ b) = byteSize a + byteSize b := by
  rw [byteSize, List.foldl_append, foldl_utf8Size, foldl_utf8Size, Nat.zero_add]

/-- A byte offset and a line, counted from 1; only a line feed begins a line. -/
structure Location where
  offset : Nat
  line : Nat
deriving DecidableEq

namespace Location

def start : Location := ⟨0, 1⟩

def after (l : Location) (text : List Char) : Location :=
  ⟨l.offset + byteSize text, l.line + text.count '\n'⟩

@[simp] theorem after_nil (l : Location) : l.after [] = l := rfl

theorem after_append (l : Location) (a b : List Char) : l.after (a ++ b) = (l.after a).after b := by
  simp [after, Nat.add_assoc]

theorem offset_le_offset_after (l : Location) (text : List Char) :
    l.offset ≤ (l.after text).offset := Nat.le_add_right _ _

end Location

end LoxLexer
