import LoxLexer.Proofs.Reader

/-!
# How far a scan looks ahead

What stands behind a point of a text changes neither the tokens that end two bytes before the point
nor the stray characters in front of it. Only a number looks two bytes ahead, for a point and a
digit; so of all lexemes but strings, what is left when one is broken off is again a lexeme, or one
with a point behind it (`Lexeme.of_front`).
-/

namespace LoxLexer

/-! ## Lexemes that are broken off -/

theorem Lexeme.of_front_numeral {whole fraction u : List Char} (hwhole : whole ≠ [])
    (hdigits : ∀ c ∈ whole ++ fraction, IsDigit c) (hne : u ≠ [])
    (hu : u <+: Numeral.text ⟨whole, fraction⟩) :
    ∃ r, Lexeme r ∧ (u = r.text ∨ u = r.text ++ ['.']) := by
  have hinteger {v : List Char} (hv : v ≠ []) (hfront : v <+: whole) :
      Lexeme (.token .number (Numeral.text ⟨v, []⟩) (.number (Numeral.value ⟨v, []⟩))) := by
    refine .number hv fun c hc => ?_
    rw [List.append_nil] at hc
    exact hdigits c (List.mem_append_left _ (hfront.subset hc))
  cases fraction with
  | nil => exact ⟨_, hinteger hne hu, .inl rfl⟩
  | cons e es =>
      rcases List.prefix_or_prefix_of_prefix hu (List.prefix_append whole _) with hfront | hcover
      · exact ⟨_, hinteger hne hfront, .inl rfl⟩
      · obtain ⟨v, rfl⟩ := hcover
        have hv : v <+: '.' :: e :: es := (List.prefix_append_right_inj whole).1 hu
        cases v with
        | nil => exact ⟨_, hinteger hwhole List.prefix_rfl, .inl (List.append_nil whole)⟩
        | cons d ds =>
            obtain ⟨rfl, hds⟩ := List.cons_prefix_cons.1 hv
            cases ds with
            | nil => exact ⟨_, hinteger hwhole List.prefix_rfl, .inr rfl⟩
            | cons f fs =>
                refine ⟨.token .number (Numeral.text ⟨whole, f :: fs⟩) (.number _),
                  .number hwhole fun c hc => ?_, .inl rfl⟩
                rcases List.mem_append.1 hc with hc | hc
                · exact hdigits c (List.mem_append_left _ hc)
                · exact hdigits c (List.mem_append_right _ (hds.subset hc))

theorem exists_of_front {c : Char} {cs u : List Char} (hne : u ≠ []) (hu : u <+: c :: cs) :
    ∃ v, u = c :: v ∧ v <+: cs := by
  cases u with
  | nil => exact absurd rfl hne
  | cons d ds =>
      obtain ⟨rfl, hds⟩ := List.cons_prefix_cons.1 hu
      exact ⟨ds, rfl, hds⟩

theorem Lexeme.of_front_word {c : Char} {cs u : List Char} (hc : IsLetter c)
    (hcs : ∀ d ∈ cs, IsLetter d ∨ IsDigit d) (hne : u ≠ []) (hu : u <+: c :: cs) :
    ∃ r, Lexeme r ∧ u = r.text := by
  obtain ⟨v, rfl, hv⟩ := exists_of_front hne hu
  exact ⟨_, .word hc fun d hd => hcs d (hv.subset hd), rfl⟩

theorem Lexeme.of_front {q : Piece} (hq : Lexeme q) (hquote : q.text.head? ≠ some '"')
    {u : List Char} (hne : u ≠ []) (hu : u <+: q.text) :
    ∃ r, Lexeme r ∧ (u = r.text ∨ u = r.text ++ ['.']) := by
  cases hq with
  | mark hm =>
      obtain ⟨v, rfl, hv⟩ := exists_of_front hne hu
      cases List.prefix_nil.1 hv
      exact ⟨_, .mark hm, .inl rfl⟩
  | @pair c kind hm =>
      have hall : ∀ m ∈ pairs, ∃ n ∈ marks, n.1 = m.1 := List.all_iff_forall_prop.1 (by decide)
      obtain ⟨⟨_, single⟩, hsingle, rfl⟩ := hall _ hm
      obtain ⟨v, rfl, hv⟩ := exists_of_front hne hu
      cases v with
      | nil => exact ⟨_, .mark hsingle, .inl rfl⟩
      | cons d ds =>
          obtain ⟨rfl, hds⟩ := List.cons_prefix_cons.1 hv
          cases List.prefix_nil.1 hds
          exact ⟨_, .pair hm, .inl rfl⟩
  | string _ => exact absurd rfl hquote
  | number hwhole hdigits => exact of_front_numeral hwhole hdigits hne hu
  | reserved word =>
      obtain ⟨c, cs, hspell, hc, hcs⟩ := word.spelling_chars
      rw [Piece.text, hspell] at hu
      obtain ⟨r, hr, heq⟩ := of_front_word hc hcs hne hu
      exact ⟨r, hr, .inl heq⟩
  | identifier hc hcs _ =>
      obtain ⟨r, hr, heq⟩ := of_front_word hc hcs hne hu
      exact ⟨r, hr, .inl heq⟩
  | comment hbody =>
      obtain ⟨v, rfl, hv⟩ := exists_of_front hne hu
      cases v with
      | nil => exact ⟨.token .slash ['/'] .absent, .mark (by decide), .inl rfl⟩
      | cons d ds =>
          obtain ⟨rfl, hds⟩ := List.cons_prefix_cons.1 hv
          exact ⟨_, .comment fun hmem => hbody (hds.subset hmem), .inl rfl⟩
  | blank hc =>
      obtain ⟨v, rfl, hv⟩ := exists_of_front hne hu
      cases List.prefix_nil.1 hv
      exact ⟨_, .blank hc, .inl rfl⟩

/-! ## Two bytes behind a lexeme -/

/-- With two bytes behind it, a longest lexeme is not made longer by what comes then. -/
theorem Longest.append_behind {p : Piece} {rest : List Char} (h : Longest p (p.text ++ rest))
    (hrest : 2 ≤ byteSize rest) (more : List Char) :
    Longest p (p.text ++ (rest ++ more)) := by
  rw [← List.append_assoc]
  refine ⟨h.lexeme, h.front.trans (List.prefix_append _ _), fun q hq hfront => ?_⟩
  rcases List.prefix_or_prefix_of_prefix hfront (List.prefix_append _ more) with hshort | hcover
  · exact h.length_le q hq hshort
  · by_cases hquote : q.text.head? = some '"'
    · obtain ⟨cs, hcs⟩ := List.head?_eq_some_iff.1 hquote
      obtain ⟨behind, htext⟩ := hfront
      rw [hcs, List.cons_append] at htext
      have hpfront := h.front.trans (List.prefix_append _ more)
      have hqfront : q.text <+: '"' :: (cs ++ behind) := hcs ▸ List.prefix_append _ behind
      rw [← htext] at hpfront
      rw [h.lexeme.eq_of_quote hq hpfront hqfront]
    · -- What `q` covers would be a lexeme in front, or one with a point behind it.
      have hne : p.text ++ rest ≠ [] := fun hnil =>
        h.lexeme.text_ne_nil (List.append_eq_nil_iff.1 hnil).1
      obtain ⟨r, hr, heq⟩ := hq.of_front hquote hne hcover
      have hr_front : r.text <+: p.text ++ rest := by
        rcases heq with heq | heq
        · exact ⟨[], by rw [List.append_nil, heq]⟩
        · exact ⟨['.'], heq.symm⟩
      have hle := h.length_le r hr hr_front
      have hshort : rest = [] ∨ rest = ['.'] := by
        rcases heq with heq | heq
        · have hlen := congrArg List.length heq
          rw [List.length_append] at hlen
          exact .inl (List.length_eq_zero_iff.1 (by omega))
        · have hlen := congrArg List.length heq
          rw [List.length_append, List.length_append, List.length_singleton] at hlen
          rcases Nat.eq_zero_or_pos rest.length with hnil | hpos
          · exact .inl (List.length_eq_zero_iff.1 hnil)
          · exact .inr (List.append_inj_right' heq (by rw [List.length_singleton]; omega))
      rcases hshort with rfl | rfl
      · exact absurd hrest (by decide)
      · exact absurd hrest (by decide)

/-! ## Tokens that end before a point -/

theorem Lexeme.exists_longest {p : Piece} (hp : Lexeme p) {text : List Char}
    (h : p.text <+: text) :
    ∃ q rest, text = q.text ++ rest ∧ Longest q (q.text ++ rest) ∧ p.text <+: q.text := by
  cases text with
  | nil => exact absurd (List.prefix_nil.1 h) hp.text_ne_nil
  | cons c cs =>
      have hspec := Cut.first_spec c cs
      generalize Cut.first c cs = cut at hspec
      cases hspec with
      | @lexeme _ _ cut hlong happ =>
          have hle := hlong.length_le p hp h
          refine ⟨cut.piece, cut.rest, happ.symm, ?_,
            List.prefix_of_prefix_length_le h hlong.front hle⟩
          rwa [happ]
      | unclosed hq => exact absurd h (noLexeme_of_quote hq p hp)
      | stray hb => exact absurd h (noLexeme_of_not_begins hb cs p hp)

theorem byteSize_le_of_front {a b : List Char} (h : a <+: b) : byteSize a ≤ byteSize b := by
  obtain ⟨more, rfl⟩ := h
  rw [byteSize_append]
  exact Nat.le_add_right _ _

/-- No event of a text ends before the first lexeme does. -/
theorem Longest.offset_le_last {q : Piece} {rest : List Char} (h : Longest q (q.text ++ rest))
    {l : Location} (hsize : (l.after (q.text ++ rest)).offset ≤ 4294967295) {e : Event}
    (he : e ∈ eventsAt l (q.text ++ rest)) : (l.after q.text).offset ≤ e.span.last := by
  rw [Location.after_append] at hsize
  have hfits := Nat.le_trans (Location.offset_le_offset_after _ rest) hsize
  rw [eventsAt_longest h] at he
  rcases List.mem_append.1 he with he | he
  · rw [Event.span_eq (Option.mem_toList.1 he), Location.last_spanOf hfits]
  · have htiling := tiling_eventsAt _ rest hsize
    exact Nat.le_trans (htiling.offset_le_first he) (Nat.le_of_lt (htiling.first_lt_last he))

/-- Of the tokens those that end two bytes before an offset, or earlier. -/
def settled (ts : List Token) (offset : Nat) : List Token :=
  ts.filter fun t => t.span.last + 2 ≤ offset

theorem settled_eq_nil {es : List Event} {offset : Nat} (h : ∀ e ∈ es, offset ≤ e.span.last + 1) :
    settled (tokensOf es) offset = [] := by
  rw [settled, List.filter_eq_nil_iff]
  intro t ht hsettled
  have hlast := h _ (mem_tokensOf ht)
  have hsettled := of_decide_eq_true hsettled
  rw [Event.span] at hlast
  omega

theorem settled_append (es fs : List Event) (offset : Nat) :
    settled (tokensOf (es ++ fs)) offset =
      settled (tokensOf es) offset ++ settled (tokensOf fs) offset := by
  rw [settled, tokensOf_append, List.filter_append]
  rfl

/-- No token ends before a lexeme that stands in front of them all. -/
theorem settled_of_cover {q : Piece} {rest u : List Char} (h : Longest q (q.text ++ rest))
    (hu : u <+: q.text) {l : Location} (hsize : (l.after (q.text ++ rest)).offset ≤ 4294967295)
    {offset : Nat} (hoffset : offset ≤ (l.after u).offset + 1) :
    settled (tokensOf (eventsAt l (q.text ++ rest))) offset = [] := by
  refine settled_eq_nil fun e he => ?_
  have hlast := h.offset_le_last hsize he
  have hle : (l.after u).offset ≤ (l.after q.text).offset :=
    Nat.add_le_add_left (byteSize_le_of_front hu) _
  omega

theorem settled_of_short {p : Piece} {rest : List Char} (hp : Lexeme p)
    (hrest : byteSize rest < 2) {l : Location} {more : List Char}
    (hsize : (l.after (p.text ++ (rest ++ more))).offset ≤ 4294967295) :
    settled (tokensOf (eventsAt l (p.text ++ (rest ++ more)))) (l.after (p.text ++ rest)).offset =
      [] := by
  have hfront : p.text <+: p.text ++ (rest ++ more) := List.prefix_append _ _
  obtain ⟨q, behind, htext, hlong, hcover⟩ := hp.exists_longest hfront
  rw [htext] at hsize ⊢
  refine settled_of_cover hlong hcover hsize ?_
  rw [Location.after_append]
  exact Nat.add_le_add_left (Nat.le_of_lt_succ hrest) _

theorem settled_longest {p : Piece} {rest more : List Char} (h : Longest p (p.text ++ rest))
    {l m : Location} (hsize : (l.after (p.text ++ (rest ++ more))).offset ≤ 4294967295)
    (hm : m = l.after p.text)
    (ih : settled (tokensOf (eventsAt m (rest ++ more))) (m.after rest).offset =
      settled (tokensOf (eventsAt m rest)) (m.after rest).offset) :
    settled (tokensOf (eventsAt l (p.text ++ (rest ++ more)))) (l.after (p.text ++ rest)).offset =
      settled (tokensOf (eventsAt l (p.text ++ rest))) (l.after (p.text ++ rest)).offset := by
  subst hm
  rcases Nat.lt_or_ge (byteSize rest) 2 with hrest | hrest
  · have hfits : (l.after (p.text ++ (rest ++ []))).offset ≤ 4294967295 := by
      rw [List.append_nil]
      rw [← List.append_assoc, Location.after_append] at hsize
      exact Nat.le_trans (Location.offset_le_offset_after _ more) hsize
    have hshort := settled_of_short h.lexeme hrest hfits
    rw [List.append_nil] at hshort
    rw [settled_of_short h.lexeme hrest hsize, hshort]
  · have hlong := h.append_behind hrest more
    rw [eventsAt_longest hlong, eventsAt_longest h, settled_append, settled_append,
      Location.after_append, ih]

theorem settled_eventsAt_append (l : Location) (text more : List Char)
    (hsize : (l.after (text ++ more)).offset ≤ 4294967295) :
    settled (tokensOf (eventsAt l (text ++ more))) (l.after text).offset =
      settled (tokensOf (eventsAt l text)) (l.after text).offset := by
  -- By the pieces of the text. The last one may be cut otherwise when more comes behind it, but
  -- then no token from there on ends early enough.
  induction text using scan_induction generalizing l with
  | nil =>
      rw [eventsAt_nil]
      refine settled_eq_nil fun e he => ?_
      have htiling := tiling_eventsAt l more hsize
      have hfirst := htiling.offset_le_first he
      have hlast := htiling.first_lt_last he
      rw [Location.after_nil]
      omega
  | token kind chars literal rest hp ih =>
      rw [List.append_assoc] at hsize ⊢
      exact settled_longest hp hsize rfl (ih _ (by rwa [← Location.after_append]))
  | trivia chars rest hp ih =>
      rw [List.append_assoc] at hsize ⊢
      exact settled_longest hp hsize rfl (ih _ (by rwa [← Location.after_append]))
  | unclosed cs hq =>
      rw [eventsAt_unclosed hq]
      by_cases hmem : '"' ∈ cs ++ more
      · -- The string ends behind the text.
        have hlong := Cut.longest_first (c := '"') (Cut.quoted_of_mem hmem)
        have hsplit := Cut.first_append '"' (cs ++ more)
        generalize Cut.first '"' (cs ++ more) = cut at hlong hsplit
        rw [List.cons_append] at hsize ⊢
        have hcover : '"' :: cs <+: cut.piece.text := by
          rcases List.prefix_or_prefix_of_prefix hlong.front (List.prefix_append ('"' :: cs) more)
            with hshort | hcover
          · exact absurd hshort (noLexeme_of_quote hq _ hlong.lexeme)
          · exact hcover
        rw [← hsplit] at hlong hsize ⊢
        exact settled_of_cover hlong hcover hsize (Nat.le_succ _)
      · rw [List.cons_append, eventsAt_unclosed hmem]
        rfl
  | stray c cs hb ih =>
      rw [← List.singleton_append, List.append_assoc, Location.after_append] at hsize
      have hrest := ih _ hsize
      rw [← Location.after_append] at hrest
      rw [List.cons_append, eventsAt_stray hb, eventsAt_stray hb]
      exact hrest

/-! ## Stray characters in front of a point -/

/-- Of the diagnostics those of stray characters that end before an offset or at it. -/
def strays (ds : List Diagnostic) (offset : Nat) : List Diagnostic :=
  ds.filter fun d => d.code == 1001 && d.span.any fun s => s.last ≤ offset

theorem strays_append (ds es : List Diagnostic) (offset : Nat) :
    strays (ds ++ es) offset = strays ds offset ++ strays es offset := by
  rw [strays, List.filter_append]
  rfl

namespace Reader

/-- What the automaton complains of stands in the text that it reads. -/
theorem span_of_mem_complaints {r : Reader} {text : List Char}
    (hsize : r.offset + byteSize text ≤ 4294967295) {d : Diagnostic} (hd : d ∈ r.complaints text) :
    d.code = 1001 ∧ ∃ s, d.span = some s ∧ r.offset < s.last ∧
      s.last ≤ r.offset + byteSize text := by
  induction text generalizing r with
  | nil => cases hd
  | cons c cs ih =>
      rw [byteSize_cons] at hsize ⊢
      have hpos := c.utf8Size_pos
      rcases List.mem_append.1 hd with hd | hd
      · rw [complaint?] at hd
        split at hd
        · cases List.mem_singleton.1 hd
          refine ⟨rfl, _, rfl, ?_⟩
          rw [Span.last, UInt32.toNat_ofNat', UInt32.toNat_ofNat']
          omega
        · cases hd
      · have hoffset : (r.read c).offset = r.offset + c.utf8Size := rfl
        obtain ⟨hcode, s, hs, hlt, hle⟩ := ih (by omega) hd
        exact ⟨hcode, s, hs, by omega, by omega⟩

theorem strays_complaints {r : Reader} {text : List Char}
    (hsize : r.offset + byteSize text ≤ 4294967295) :
    strays (r.complaints text) (r.offset + byteSize text) = r.complaints text := by
  refine List.filter_eq_self.2 fun d hd => ?_
  obtain ⟨hcode, s, hs, _, hle⟩ := span_of_mem_complaints hsize hd
  simp [hcode, hs, hle]

theorem strays_diagnostics {r : Reader} {text : List Char}
    (hsize : r.offset + byteSize text ≤ 4294967295) :
    strays (r.diagnostics text) r.offset = [] := by
  rw [diagnostics, strays_append, List.append_eq_nil_iff]
  constructor
  · refine List.filter_eq_nil_iff.2 fun d hd => ?_
    obtain ⟨_, s, hs, hlt, _⟩ := span_of_mem_complaints hsize hd
    simp [hs, hlt]
  · rw [unclosed?]
    split <;> rfl

theorem strays_diagnostics_append (r : Reader) {text more : List Char}
    (hsize : r.offset + byteSize (text ++ more) ≤ 4294967295) :
    strays (r.diagnostics (text ++ more)) (r.offset + byteSize text) = r.complaints text := by
  rw [byteSize_append, ← Nat.add_assoc, ← offset_readAll] at hsize
  have hfits : r.offset + byteSize text ≤ 4294967295 := by
    rw [← offset_readAll]
    exact Nat.le_trans (Nat.le_add_right _ _) hsize
  have hmore := strays_diagnostics hsize
  rw [offset_readAll] at hmore
  rw [diagnostics_append, strays_append, strays_complaints hfits, hmore, List.append_nil]

end Reader

/-! ## Scans of texts that begin alike -/

theorem settled_scan_append {a b : String} (h : (a ++ b).utf8ByteSize ≤ 4294967295) :
    settled (scan (a ++ b)).lexemes a.utf8ByteSize = settled (scan a).lexemes a.utf8ByteSize := by
  have hsize : (Location.start.after (a.toList ++ b.toList)).offset ≤ 4294967295 := by
    rwa [← String.toList_append, offset_after_toList]
  have hsettled := settled_eventsAt_append .start a.toList b.toList hsize
  rw [offset_after_toList, ← String.toList_append] at hsettled
  rw [lexemes_scan, lexemes_scan]
  exact hsettled

/-- The automaton reads a text in the same way whatever stands behind it. -/
theorem strays_scan_append {a b : String} (h : (a ++ b).utf8ByteSize ≤ 4294967295) :
    strays (scan (a ++ b)).diagnostics.toList a.utf8ByteSize =
      Reader.start.complaints a.toList := by
  have hread : (scan (a ++ b)).diagnostics.toList = Reader.start.diagnostics (a ++ b).toList := by
    rw [diagnostics_scan]
    exact (Reader.diagnostics_codeAt .start _ (by rwa [offset_after_toList])).symm
  have hsize : Reader.start.offset + byteSize (a.toList ++ b.toList) ≤ 4294967295 := by
    rwa [← String.toList_append, byteSize_toList, Reader.start, Nat.zero_add]
  have hstrays := Reader.start.strays_diagnostics_append hsize
  rw [byteSize_toList, Reader.start, Nat.zero_add] at hstrays
  rw [hread, String.toList_append]
  exact hstrays

/-- What stands behind a point of a text changes no token that ends two bytes before the point, and
no stray character in front of it. -/
theorem scan_lookahead (front a b : String) (ha : (front ++ a).utf8ByteSize ≤ 4294967295)
    (hb : (front ++ b).utf8ByteSize ≤ 4294967295) :
    settled (scan (front ++ a)).lexemes front.utf8ByteSize =
        settled (scan (front ++ b)).lexemes front.utf8ByteSize ∧
      strays (scan (front ++ a)).diagnostics.toList front.utf8ByteSize =
        strays (scan (front ++ b)).diagnostics.toList front.utf8ByteSize := by
  rw [settled_scan_append ha, settled_scan_append hb, strays_scan_append ha, strays_scan_append hb]
  exact ⟨rfl, rfl⟩

/-- A number and a comment that go on behind the point, and a string that is left open there. -/
theorem scan_lookahead_number :
    (("a #1." ++ "5// é").utf8ByteSize ≤ 4294967295 ∧ ("a #1." ++ "\"").utf8ByteSize ≤ 4294967295) ∧
      settled (scan ("a #1." ++ "5// é")).lexemes 5 = settled (scan ("a #1." ++ "\"")).lexemes 5 ∧
        strays (scan ("a #1." ++ "5// é")).diagnostics.toList 5 =
          strays (scan ("a #1." ++ "\"")).diagnostics.toList 5 :=
  ⟨⟨by decide, by decide⟩, scan_lookahead "a #1." "5// é" "\"" (by decide) (by decide)⟩

/-- One byte would not be enough. -/
example : settled (scan "1.").lexemes 3 ≠ settled (scan "1.5").lexemes 3 := by decide +kernel

end LoxLexer
