import LoxLexer.Json.Printer
import LoxLexer.Proofs.Delimited

/-!
# JSON texts can be read back

Strings end at their closing quotes, which no escape can be taken for, and numerals end where no
part of a numeral stands. So the pretty form of a value shows the value, as long as its numbers are
written as numerals (`pretty_injective`).
-/

namespace LoxLexer

namespace Json

/-! ## Strings -/

/-- The characters that are escaped. -/
def marked : List Char := '"' :: '\\' :: (List.range 32).map Char.ofNat

theorem escape_of_not_marked {c : Char} (h : c ∉ marked) : escape c = [c] := by
  have hlow : ¬c.toNat < 32 := by
    intro hlt
    apply h
    have hcontrol : c ∈ (List.range 32).map Char.ofNat :=
      List.mem_map.2 ⟨c.toNat, List.mem_range.2 hlt, Char.ofNat_toNat c⟩
    simp [marked, hcontrol]
  unfold escape
  split <;> first | exact if_neg hlow | exact absurd (by decide) h

theorem exists_escape {c : Char} (h : c ∈ marked) : ∃ cs, escape c = '\\' :: cs := by
  have hall : (marked.all fun d => escape d = '\\' :: (escape d).tail) = true := by decide
  exact ⟨_, of_decide_eq_true (List.all_eq_true.1 hall c h)⟩

/-- No escape begins another one. -/
theorem eq_of_escape_front {c d : Char} (hc : c ∈ marked) (hd : d ∈ marked)
    (h : escape c <+: escape d) : c = d := by
  have hall : (marked.all fun a => marked.all fun b => escape a <+: escape b → a = b) = true := by
    decide
  exact of_decide_eq_true (List.all_eq_true.1 (List.all_eq_true.1 hall c hc) d hd) h

theorem ne_backslash_of_not_marked {c : Char} (h : c ∉ marked) : c ≠ '\\' := by
  rintro rfl
  exact h (by decide)

theorem delimited_escape (c d : Char) : Delimited escape Anything c d := by
  intro xs ys _ _ h
  suffices heq : c = d by
    subst heq
    exact ⟨rfl, List.append_cancel_left h⟩
  by_cases hc : c ∈ marked
  · by_cases hd : d ∈ marked
    · rcases List.append_eq_append_iff.1 h with ⟨more, hmore, _⟩ | ⟨more, hmore, _⟩
      · exact eq_of_escape_front hc hd ⟨more, hmore.symm⟩
      · exact (eq_of_escape_front hd hc ⟨more, hmore.symm⟩).symm
    · obtain ⟨cs, hescape⟩ := exists_escape hc
      rw [hescape, escape_of_not_marked hd] at h
      exact absurd (List.cons.inj h).1.symm (ne_backslash_of_not_marked hd)
  · by_cases hd : d ∈ marked
    · obtain ⟨ds, hescape⟩ := exists_escape hd
      rw [hescape, escape_of_not_marked hc] at h
      exact absurd (List.cons.inj h).1 (ne_backslash_of_not_marked hc)
    · rw [escape_of_not_marked hc, escape_of_not_marked hd] at h
      exact (List.cons.inj h).1

theorem escape_not_front_quote (c : Char) (cs : List Char) : ¬escape c <+: '"' :: cs := by
  intro hfront
  by_cases hc : c ∈ marked
  · obtain ⟨ds, hescape⟩ := exists_escape hc
    rw [hescape] at hfront
    exact absurd (List.cons_prefix_cons.1 hfront).1 (by decide)
  · rw [escape_of_not_marked hc] at hfront
    have hquote := (List.cons_prefix_cons.1 hfront).1
    exact hc (hquote ▸ by decide)

/-- A quoted text ends at its closing quote. -/
theorem quote_cut {a b : String} {xs ys : List Char}
    (h : (quote a).toList ++ xs = (quote b).toList ++ ys) : a = b ∧ xs = ys := by
  simp only [quote, String.toList_ofList, List.cons_append, List.append_assoc, List.nil_append,
    List.cons.injEq, true_and] at h
  have hcut : ∀ c ∈ a.toList, ∀ d ∈ b.toList, Delimited escape Anything c d :=
    fun c _ d _ => delimited_escape c d
  obtain ⟨htext, hrest⟩ := Delimited.flatMap_cut hcut (fun _ _ => trivial) trivial trivial
    (fun d _ => escape_not_front_quote d xs) (fun c _ => escape_not_front_quote c ys) h
  exact ⟨String.toList_inj.1 htext, (List.cons.inj hrest).2⟩

/-! ## Numerals -/

def isNumeralPart (c : Char) : Bool :=
  c.isDigit || c == '.' || c == '-' || c == '+' || c == 'e'

def Parts (text : List Char) : Prop := ∀ c ∈ text, isNumeralPart c = true

def IsNumeral (text : List Char) : Prop := text ≠ [] ∧ Parts text

/-- What stands here does not go on with a numeral. -/
def Ends (xs : List Char) : Prop := ∀ x ∈ xs.head?, isNumeralPart x = false

namespace Parts

theorem nil : Parts [] := fun _ hc => absurd hc List.not_mem_nil

theorem cons {c : Char} {cs : List Char} (hc : isNumeralPart c = true) (hcs : Parts cs) :
    Parts (c :: cs) := List.forall_mem_cons.2 ⟨hc, hcs⟩

theorem append {a b : List Char} (ha : Parts a) (hb : Parts b) : Parts (a ++ b) :=
  List.forall_mem_append.2 ⟨ha, hb⟩

theorem digits (n : Nat) : Parts (Nat.toDigits 10 n) := by
  intro c hc
  have hdigit : c.isDigit = true := Nat.isDigit_of_mem_toDigits (by decide) (by decide) hc
  simp [isNumeralPart, hdigit]

theorem zeros (n : Int) : Parts (Layout.zeros n) := by
  intro c hc
  rw [List.eq_of_mem_replicate hc]
  rfl

/-- With a point among them. -/
theorem pointed {text : List Char} (h : Parts text) (n : Nat) :
    Parts (text.take n ++ '.' :: text.drop n) :=
  append (fun c hc => h c (List.mem_of_mem_take hc))
    (cons rfl fun c hc => h c (List.mem_of_mem_drop hc))

theorem positional (l : Layout) {text : List Char} (h : Parts text) (point : Int) :
    Parts (l.positional text point) := by
  unfold Layout.positional
  split
  · exact cons rfl (cons rfl ((zeros _).append h))
  · split
    · refine (h.append (zeros _)).append ?_
      split
      · exact cons rfl (cons rfl nil)
      · exact nil
    · exact h.pointed _

theorem scientific {text : List Char} (h : Parts text) (exponent : Int) :
    Parts (Layout.scientific text exponent) := by
  have hsign : isNumeralPart (if exponent < 0 then '-' else '+') = true := by split <;> rfl
  refine append ?_ (cons rfl (cons hsign (digits _)))
  split
  · exact h
  · exact h.pointed 1

end Parts

theorem isNumeral_toString (n : Nat) : IsNumeral (toString n).toList := by
  rw [Nat.toString_eq_ofList_toDigits, String.toList_ofList]
  exact ⟨Nat.toDigits_ne_nil, .digits n⟩

theorem isNumeral_positional (l : Layout) {text : List Char} (h : IsNumeral text) (point : Int) :
    IsNumeral (l.positional text point) := by
  refine ⟨?_, h.2.positional l point⟩
  have hne := h.1
  unfold Layout.positional
  split
  · simp
  · split <;> simp [hne]

theorem isNumeral_magnitude (l : Layout) (x : Binary64) : IsNumeral (l.magnitude x) := by
  unfold Layout.magnitude
  split
  · exact isNumeral_positional l ⟨by simp, .cons rfl .nil⟩ 1
  · dsimp only
    split
    · exact isNumeral_positional l ⟨Nat.toDigits_ne_nil, .digits _⟩ _
    · exact ⟨by simp [Layout.scientific], .scientific (.digits _) _⟩

/-- Finite numbers are written as numerals. -/
theorem isNumeral_write (l : Layout) {x : Binary64} (h : x.isFinite = true) :
    IsNumeral (l.write x).toList := by
  obtain ⟨hne, hparts⟩ := isNumeral_magnitude l x
  have hnan : x.isNaN = false := by simp [Binary64.isNaN, h]
  have hwrite : (l.write x).toList = (if x.isNegative then ['-'] else []) ++ l.magnitude x := by
    simp [Layout.write, hnan, h]
  have hsign : Parts (if x.isNegative then ['-'] else []) := by
    split
    · exact .cons rfl .nil
    · exact .nil
  rw [hwrite]
  exact ⟨by simp [hne], hsign.append hparts⟩

/-! ## Values -/

/-- The numbers in the value are written as numerals. -/
inductive Proper : Json → Prop
  | null : Proper .null
  | number {text : String} (h : IsNumeral text.toList) : Proper (.number text)
  | string (text : String) : Proper (.string text)
  | list {items : List Json} (h : ∀ item ∈ items, Proper item) : Proper (.list items)
  | object {members : List (String × Json)} (h : ∀ m ∈ members, Proper m.2) :
      Proper (.object members)

/-! ## Blocks -/

section Blocks

variable {α : Type} (write : α → String)

/-- What comes behind the first part of a block. -/
def more (as : List α) : List Char := as.flatMap fun a => ',' :: '\n' :: (write a).toList

theorem toList_separate (a : α) (as : List α) :
    (separate "\n" ((a :: as).map write)).toList = (write a).toList ++ more write as := by
  induction as generalizing a with
  | nil => simp [separate, more]
  | cons b as ih =>
      rw [List.map_cons, List.map_cons, separate, String.intercalate_cons_cons,
        String.toList_append, ← separate, ← List.map_cons, ih]
      simp [more]

/-- A block between two characters. -/
def bracketed (opening closing : Char) (indent : String) (as : List α) : List Char :=
  (block (String.singleton opening) (String.singleton closing) indent (as.map write)).toList

theorem bracketed_nil (opening closing : Char) (indent : String) :
    bracketed write opening closing indent [] = [opening, closing] := by
  simp [bracketed, block]

theorem bracketed_cons (opening closing : Char) (indent : String) (a : α) (as : List α) :
    bracketed write opening closing indent (a :: as) =
      opening :: '\n' ::
        ((write a).toList ++ (more write as ++ '\n' :: (indent.toList ++ [closing]))) := by
  have hseparate := toList_separate write a as
  rw [List.map_cons] at hseparate
  simp [bracketed, block, hseparate]

theorem exists_bracketed (opening closing : Char) (indent : String) (as : List α) :
    ∃ cs, bracketed write opening closing indent as = opening :: cs := by
  cases as with
  | nil => exact ⟨_, bracketed_nil write opening closing indent⟩
  | cons a as => exact ⟨_, bracketed_cons write opening closing indent a as⟩

theorem ends_more (as : List α) (xs : List Char) : Ends (more write as ++ '\n' :: xs) := by
  intro x hx
  cases as <;> cases hx <;> rfl

variable {write} {as bs : List α}

theorem more_cut (hcut : ∀ a ∈ as, ∀ b ∈ bs, Delimited (fun c => (write c).toList) Ends a b)
    {xs ys : List Char} (h : more write as ++ '\n' :: xs = more write bs ++ '\n' :: ys) :
    as = bs ∧ xs = ys := by
  have hlines : ∀ a ∈ as, ∀ b ∈ bs,
      Delimited (fun c => ',' :: '\n' :: (write c).toList) Ends a b := by
    intro a ha b hb zs ws hzs hws heq
    simp only [List.cons_append, List.cons.injEq, true_and] at heq
    exact hcut a ha b hb zs ws hzs hws heq
  have hcomma (c : α) (zs : List Char) : Ends (',' :: '\n' :: (write c).toList ++ zs) := by
    intro x hx
    cases hx
    rfl
  have hnewline (zs : List Char) : Ends ('\n' :: zs) := by
    intro x hx
    cases hx
    rfl
  have hstop (c : α) (zs : List Char) : ¬ ',' :: '\n' :: (write c).toList <+: '\n' :: zs := by
    intro hfront
    exact absurd (List.cons_prefix_cons.1 hfront).1 (by decide)
  obtain ⟨heq, hrest⟩ := Delimited.flatMap_cut hlines hcomma (hnewline xs) (hnewline ys)
    (fun b _ => hstop b xs) (fun a _ => hstop a ys) h
  exact ⟨heq, (List.cons.inj hrest).2⟩

/-- A block shows its parts and where it ends, if the parts do. -/
theorem bracketed_cut
    (hcut : ∀ a ∈ as, ∀ b ∈ bs, Delimited (fun c => (write c).toList) Ends a b)
    {opening closing : Char} (hclosing : closing ≠ '\n') {indent : String} {xs ys : List Char}
    (h : bracketed write opening closing indent as ++ xs =
      bracketed write opening closing indent bs ++ ys) : as = bs ∧ xs = ys := by
  cases as with
  | nil =>
      cases bs with
      | nil => exact ⟨rfl, List.append_cancel_left h⟩
      | cons b bs =>
          simp only [bracketed_nil, bracketed_cons, List.cons_append, List.cons.injEq] at h
          exact absurd h.2.1 hclosing
  | cons a as =>
      cases bs with
      | nil =>
          simp only [bracketed_nil, bracketed_cons, List.cons_append, List.cons.injEq] at h
          exact absurd h.2.1.symm hclosing
      | cons b bs =>
          simp only [bracketed_cons, List.cons_append, List.append_assoc, List.cons.injEq,
            true_and] at h
          obtain ⟨rfl, hrest⟩ := hcut a List.mem_cons_self b List.mem_cons_self _ _
            (ends_more write as _) (ends_more write bs _) h
          obtain ⟨rfl, hend⟩ := more_cut (fun c hc d hd =>
            hcut c (List.mem_cons_of_mem a hc) d (List.mem_cons_of_mem a hd)) hrest
          exact ⟨rfl, by simpa using hend⟩

end Blocks

/-! ## Pretty forms -/

theorem toList_prettyAt_list (indent : String) (items : List Json) :
    (prettyAt indent (.list items)).toList =
      bracketed (fun item => indent ++ "  " ++ prettyAt (indent ++ "  ") item) '[' ']' indent
        items := by
  rw [prettyAt, prettyItems_eq]
  rfl

theorem toList_prettyAt_object (indent : String) (members : List (String × Json)) :
    (prettyAt indent (.object members)).toList =
      bracketed (fun m => indent ++ "  " ++ quote m.1 ++ ": " ++ prettyAt (indent ++ "  ") m.2)
        '{' '}' indent members := by
  rw [prettyAt, prettyMembers_eq]
  rfl

/-- How the written form of a value begins. -/
inductive Opens : Json → Char → Prop
  | null : Opens .null 'n'
  | number {text : String} {c : Char} (h : isNumeralPart c = true) : Opens (.number text) c
  | string (text : String) : Opens (.string text) '"'
  | list (items : List Json) : Opens (.list items) '['
  | object (members : List (String × Json)) : Opens (.object members) '{'

/-- Values of one shape. -/
inductive Alike : Json → Json → Prop
  | null : Alike .null .null
  | number (s t : String) : Alike (.number s) (.number t)
  | string (s t : String) : Alike (.string s) (.string t)
  | list (items others : List Json) : Alike (.list items) (.list others)
  | object (members others : List (String × Json)) : Alike (.object members) (.object others)

theorem Opens.alike {a b : Json} {c : Char} (ha : Opens a c) (hb : Opens b c) : Alike a b := by
  cases ha <;> cases hb
  all_goals first | constructor | exact absurd ‹isNumeralPart _ = true› (by decide)

theorem Proper.exists_opens {a : Json} (ha : Proper a) (indent : String) :
    ∃ c cs, (prettyAt indent a).toList = c :: cs ∧ Opens a c := by
  cases ha with
  | null =>
      rw [prettyAt]
      exact ⟨_, _, rfl, .null⟩
  | number h =>
      obtain ⟨c, cs, htext⟩ := List.exists_cons_of_ne_nil h.1
      rw [prettyAt]
      exact ⟨c, cs, htext, .number (h.2 c (by simp [htext]))⟩
  | string text =>
      rw [prettyAt, quote, String.toList_ofList]
      exact ⟨_, _, rfl, .string text⟩
  | list h =>
      rw [toList_prettyAt_list]
      obtain ⟨cs, hcs⟩ := exists_bracketed _ '[' ']' indent _
      exact ⟨_, cs, hcs, .list _⟩
  | object h =>
      rw [toList_prettyAt_object]
      obtain ⟨cs, hcs⟩ := exists_bracketed _ '{' '}' indent _
      exact ⟨_, cs, hcs, .object _⟩

theorem Proper.alike {a b : Json} (ha : Proper a) (hb : Proper b) {indent : String}
    {xs ys : List Char} (h : (prettyAt indent a).toList ++ xs = (prettyAt indent b).toList ++ ys) :
    Alike a b := by
  obtain ⟨c, cs, hc, hopens⟩ := ha.exists_opens indent
  obtain ⟨d, ds, hd, hopens'⟩ := hb.exists_opens indent
  rw [hc, hd, List.cons_append, List.cons_append] at h
  obtain ⟨rfl, _⟩ := List.cons.inj h
  exact hopens.alike hopens'

/-- The written form of a value shows the value and where the form ends, unless a numeral may go
on. -/
theorem Proper.delimited {a : Json} (ha : Proper a) (indent : String) {b : Json} (hb : Proper b) :
    Delimited (fun v => (prettyAt indent v).toList) Ends a b := by
  -- By the values in `a`. The value `b` is of the same shape, since it begins alike.
  induction ha generalizing indent b with
  | null =>
      intro xs ys _ _ h
      cases Proper.null.alike hb h
      exact ⟨rfl, List.append_cancel_left h⟩
  | number hnumeral =>
      intro xs ys hxs hys h
      cases (Proper.number hnumeral).alike hb h
      cases hb with
      | number hnumeral' =>
          simp only [prettyAt] at h
          obtain ⟨htext, hrest⟩ := append_cut hnumeral.2 hnumeral'.2 hxs hys h
          exact ⟨by rw [String.toList_inj.1 htext], hrest⟩
  | string text =>
      intro xs ys _ _ h
      cases (Proper.string text).alike hb h
      simp only [prettyAt] at h
      obtain ⟨rfl, hrest⟩ := quote_cut h
      exact ⟨rfl, hrest⟩
  | list hitems ih =>
      intro xs ys _ _ h
      cases (Proper.list hitems).alike hb h
      cases hb with
      | list hothers =>
          simp only [toList_prettyAt_list] at h
          have hcut := bracketed_cut ?_ (by decide) h
          · obtain ⟨rfl, hrest⟩ := hcut
            exact ⟨rfl, hrest⟩
          · intro item hitem other hother zs ws hzs hws heq
            simp only [String.toList_append, List.append_assoc, List.append_cancel_left_eq] at heq
            exact ih item hitem _ (hothers other hother) zs ws hzs hws heq
  | object hmembers ih =>
      intro xs ys _ _ h
      cases (Proper.object hmembers).alike hb h
      cases hb with
      | object hothers =>
          simp only [toList_prettyAt_object] at h
          have hcut := bracketed_cut ?_ (by decide) h
          · obtain ⟨rfl, hrest⟩ := hcut
            exact ⟨rfl, hrest⟩
          · intro m hm other hother zs ws hzs hws heq
            simp only [String.toList_append, List.append_assoc, List.append_cancel_left_eq] at heq
            obtain ⟨hkey, hvalue⟩ := quote_cut heq
            simp only [List.append_cancel_left_eq] at hvalue
            obtain ⟨hvalue, hrest⟩ := ih m hm _ (hothers other hother) zs ws hzs hws hvalue
            exact ⟨Prod.ext hkey hvalue, hrest⟩

/-- A value is shown by its pretty form. -/
theorem pretty_injective {a b : Json} (ha : Proper a) (hb : Proper b) (h : a.pretty = b.pretty) :
    a = b := by
  have hends : Ends [] := fun x hx => nomatch hx
  have hchars : (prettyAt "" a).toList ++ [] = (prettyAt "" b).toList ++ [] := by
    rw [← pretty, ← pretty, h]
  exact (ha.delimited "" hb [] [] hends hends hchars).1

end Json

end LoxLexer
