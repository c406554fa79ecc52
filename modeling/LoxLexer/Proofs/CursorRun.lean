import LoxLexer.Proofs.CursorPass
import LoxLexer.Proofs.Tiling

/-!
# Runs are safe

However long a source is, passes over it are trapped nowhere: the cursor stands in order and between
characters before and after each of them, and each brings it forward. So the passes come to an end,
and what they have found then are the events of the source.
-/

namespace LoxLexer

/-! ## Spans of offsets -/

/-- The span of two offsets, both cut off at the last position. Asking for its end does not fail. -/
structure Span.Clamps (s : Span) (first last : Nat) : Prop where
  first_le_last : first ≤ last
  first_eq : s.first = min first 4294967295
  last_eq : s.last = min last 4294967295
  stop_eq : s.stop = .ok (.ofOffset last)
  range_eq : ∃ text, s.range = .ok text

theorem Span.clamps_covering {first last : Nat} (h : first ≤ last) :
    (covering first last h).Clamps first last := by
  refine ⟨h, Position.toNat_ofOffset first, toNat_start_add_length_covering h, stop_covering h, ?_⟩
  rw [range, stop_covering h]
  exact ⟨_, rfl⟩

theorem Location.clamps_spanOf (l : Location) (text : List Char) :
    (l.spanOf text).Clamps l.offset (l.after text).offset :=
  Span.clamps_covering (l.offset_le_offset_after text)

/-- The event tells of the text from where the cursor's lexeme begins to where the cursor stands. -/
structure Event.FoundAt (source : String) (e : Event) (c : Cursor) : Prop where
  tells : ∃ text, e.TellsOf text ∧ Holds source c.start c.current (.ofList text)
  span : e.span.Clamps c.start c.current

namespace Cursor

variable {source : String} {n : Nat} {c : Cursor} {found : List Event} {before rest : List Char}

/-- The cursor stands in order and between characters of the source. -/
structure Sound (source : String) (c : Cursor) : Prop where
  start_le_current : c.start ≤ c.current
  current_le : c.current ≤ source.utf8ByteSize
  start_valid : String.Pos.Raw.IsValid source ⟨c.start⟩
  current_valid : String.Pos.Raw.IsValid source ⟨c.current⟩

/-! ## Between two passes -/

/-- The cursor stands behind a part of the source, and only the events of the rest are still to be
found. -/
structure Stands (source : String) (n : Nat) (c : Cursor) (found : List Event)
    (before rest : List Char) : Prop where
  source_eq : source.toList = before ++ rest
  cursor_eq : c = inside c.start (Location.start.after before)
  sound : Sound source c
  passes_le : n ≤ c.current
  events_eq : events source = found ++ eventsAt (Location.start.after before) rest

theorem Stands.first (source : String) : Stands source 0 first [] [] source.toList := by
  have hvalid : String.Pos.Raw.IsValid source ⟨0⟩ := String.Pos.Raw.isValid_zero
  exact ⟨rfl, rfl, ⟨Nat.le_refl 0, Nat.zero_le _, hvalid, hvalid⟩, Nat.le_refl 0, rfl⟩

theorem Stands.restAt (h : Stands source n c found before rest) :
    RestAt source (Location.start.after before) rest :=
  ⟨before, h.source_eq, Nat.zero_add _⟩

theorem Stands.current_eq (h : Stands source n c found before rest) :
    c.current = (Location.start.after before).offset := congrArg current h.cursor_eq

theorem Stands.line_eq (h : Stands source n c found before rest) :
    c.line = (Location.start.after before).line := congrArg line h.cursor_eq

/-! ## One pass -/

theorem tellsOf_first {b : Char} {cs : List Char} {l : Location} {e : Event}
    (he : e ∈ (Cut.first b cs).piece.event? l) : e.TellsOf (Cut.first b cs).piece.text := by
  have hspec := Cut.first_spec b cs
  generalize Cut.first b cs = cut at hspec he
  cases hspec with
  | @lexeme _ _ cut h _ =>
      obtain ⟨p, rest⟩ := cut
      cases p with
      | token kind chars literal =>
          cases he
          simpa [Piece.text] using Event.TellsOf.token (t := ⟨kind, .ofList chars, literal, _, _⟩)
      | trivia chars => cases he
      | stray d => cases h.lexeme
      | unclosed chars => cases h.lexeme
  | unclosed =>
      cases he
      exact .unclosed
  | stray =>
      cases he
      exact .character

/-- What a pass does: it is not trapped, its lexeme begins where the cursor stood, and the cursor is
brought forward. -/
structure Advances (source : String) (c : Cursor) (event : Option Event) (d : Cursor) : Prop where
  pass_eq : c.pass source = .ok (event, d)
  start_eq : d.start = c.current
  forward : c.current < d.current
  found_at : ∀ e ∈ event, e.FoundAt source d

theorem Stands.pass {b : Char} {cs : List Char} (h : Stands source n c found before (b :: cs)) :
    ∃ event d, Advances source c event d ∧
      Stands source (n + 1) d (found ++ event.toList) (before ++ (Cut.first b cs).piece.text)
        (Cut.first b cs).rest := by
  -- The pass takes the first piece of the rest, and the cursor stands behind it then.
  have hpass := (congrArg (Cursor.pass source) h.cursor_eq).trans (pass_eq h.restAt c.start)
  have htells {e : Event} (he : e ∈ (Cut.first b cs).piece.event? (Location.start.after before)) :=
    tellsOf_first he
  have hsplit := Cut.first_append b cs
  have hpos := byteSize_pos (Cut.text_first_ne_nil b cs)
  have hsource := h.source_eq
  have hevents := h.events_eq
  have hrest := h.restAt
  rw [eventsAt_cons, ← Location.after_append, ← List.append_assoc] at hevents
  rw [← hsplit] at hsource hrest
  rw [← List.append_assoc] at hsource
  generalize (Cut.first b cs).piece = p, (Cut.first b cs).rest = rest at *
  have hholds := hrest.holds
  have hforward : c.current < (behind (Location.start.after before) p.text).current := by
    rw [h.current_eq]
    exact Nat.lt_add_of_pos_right hpos
  refine ⟨_, _, ⟨hpass, h.current_eq.symm, hforward, fun e he => ?_⟩,
    hsource, ?_, ⟨hholds.start_le_stop, ?_, hholds.start_valid, hholds.stop_valid⟩,
    Nat.le_trans (Nat.succ_le_succ h.passes_le) hforward, hevents⟩
  · refine ⟨⟨p.text, htells he, hholds⟩, ?_⟩
    rw [Event.span_eq he]
    exact Location.clamps_spanOf _ _
  · rw [Location.after_append]
    rfl
  · rw [← hrest.after.size]
    exact Nat.le_add_right _ _

/-! ## Whole runs -/

theorem Run.stands (h : Run source n c found) :
    ∃ before rest, Stands source n c found before rest := by
  induction h with
  | first => exact ⟨_, _, .first source⟩
  | @pass n c found event d h hmore hpass ih =>
      obtain ⟨before, rest, hstands⟩ := ih
      cases rest with
      | nil =>
          have hsize := hstands.restAt.size
          rw [byteSize_nil, ← hstands.current_eq] at hsize
          omega
      | cons b cs =>
          obtain ⟨event, d, hadvances, hnext⟩ := hstands.pass
          cases hadvances.pass_eq.symm.trans hpass
          exact ⟨_, _, hnext⟩

theorem Run.advances (h : Run source n c found) (hmore : c.current < source.utf8ByteSize) :
    ∃ event d, Advances source c event d := by
  obtain ⟨before, rest, hstands⟩ := h.stands
  cases rest with
  | nil =>
      have hsize := hstands.restAt.size
      rw [byteSize_nil, ← hstands.current_eq] at hsize
      omega
  | cons b cs =>
      obtain ⟨event, d, hadvances, _⟩ := hstands.pass
      exact ⟨event, d, hadvances⟩

/-- A run that has come to the end has found the events of the source. -/
theorem Run.found_eq (h : Run source n c found) (hend : c.current = source.utf8ByteSize) :
    found = events source ∧ c.line = (Location.start.after source.toList).line := by
  obtain ⟨before, rest, hstands⟩ := h.stands
  have hsize := hstands.restAt.size
  rw [← hstands.current_eq, hend] at hsize
  cases rest with
  | nil =>
      have hsource := hstands.source_eq
      have hevents := hstands.events_eq
      rw [List.append_nil] at hsource
      rw [eventsAt_nil, List.append_nil] at hevents
      rw [hsource]
      exact ⟨hevents.symm, hstands.line_eq⟩
  | cons b cs =>
      have hpos := b.utf8Size_pos
      rw [byteSize_cons] at hsize
      omega

/-- Passes go on until the end is reached. -/
theorem Run.exists_end (h : Run source n c found) :
    ∃ m d more, Run source m d more ∧ d.current = source.utf8ByteSize := by
  -- Each pass leaves fewer bytes ahead of the cursor.
  induction hleft : source.utf8ByteSize - c.current using Nat.strong_induction_on
    generalizing n c found with
  | h left ih =>
      obtain ⟨before, rest, hstands⟩ := h.stands
      rcases Nat.eq_or_lt_of_le hstands.sound.current_le with hend | hmore
      · exact ⟨n, c, found, h, hend⟩
      · obtain ⟨event, d, hadvances⟩ := h.advances hmore
        have hforward := hadvances.forward
        exact ih (source.utf8ByteSize - d.current) (by omega) (h.pass hmore hadvances.pass_eq) rfl

theorem Run.found_at (h : Run source n c found) {e : Event} (he : e ∈ found) :
    ∃ m d more, Run source m d more ∧ e.FoundAt source d := by
  induction h with
  | first => cases he
  | @pass n c found event d h hmore hpass ih =>
      rcases List.mem_append.1 he with he | he
      · exact ih he
      · obtain ⟨event, d, hadvances⟩ := h.advances hmore
        cases hadvances.pass_eq.symm.trans hpass
        exact ⟨_, _, _, h.pass hmore hpass, hadvances.found_at e (Option.mem_toList.1 he)⟩

end Cursor

/-! ## Scans are safe -/

/-- What can be relied on when a source is passed over, and what the scan takes from it. Neither the
passes nor the lines that are counted outrun the bytes that are passed over, so the passes end. All
that is found has a span of true offsets. -/
structure SafeScan (source : String) : Prop where
  sound : ∀ {n c found}, Cursor.Run source n c found →
    c.Sound source ∧ n ≤ c.current ∧ c.line ≤ c.current + 1
  advances : ∀ {n c found}, Cursor.Run source n c found → c.current < source.utf8ByteSize →
    ∃ event d, Cursor.Advances source c event d
  ends : ∃ n c found, n ≤ source.utf8ByteSize ∧ Cursor.Run source n c found ∧
    c.current = source.utf8ByteSize
  result : ∀ {n c found}, Cursor.Run source n c found → c.current = source.utf8ByteSize →
    (scan source).tokens = tokensOf found ++ [.eof c.line c.current] ∧
      (scan source).diagnostics.toList = diagnosticsOf found
  tokens : ∀ t ∈ (scan source).lexemes, ∃ n c found, Cursor.Run source n c found ∧
    (Event.token t).FoundAt source c
  diagnostics : ∀ d ∈ (scan source).diagnostics.toList, ∃ n c found, Cursor.Run source n c found ∧
    ∃ e, e.diagnostic = d ∧ d.span = some e.span ∧ (Event.error e).FoundAt source c
  eof : ∀ t ∈ (scan source).tokens, t.isEof →
    t.span.Clamps source.utf8ByteSize source.utf8ByteSize

theorem safeScan (source : String) : SafeScan source := by
  obtain ⟨n, c, found, hrun, hend⟩ := @Cursor.Run.exists_end source _ _ _ .first
  obtain ⟨hfound, _⟩ := hrun.found_eq hend
  obtain ⟨_, _, hstands⟩ := hrun.stands
  refine ⟨fun h => ?_, fun h hmore => h.advances hmore,
    ⟨n, c, found, hend ▸ hstands.passes_le, hrun, hend⟩, fun h hend => ?_,
    fun t ht => ?_, fun d hd => ?_, fun t ht heof => ?_⟩
  · obtain ⟨before, rest, hstands⟩ := h.stands
    have hcount := count_le_byteSize before
    have hline := hstands.line_eq
    have hcurrent := hstands.current_eq
    simp only [Location.after, Location.start] at hline hcurrent
    exact ⟨hstands.sound, hstands.passes_le, by omega⟩
  · obtain ⟨rfl, hline⟩ := h.found_eq hend
    rw [hline, hend, tokens_scan, offset_after_toList]
    exact ⟨rfl, diagnostics_scan source⟩
  · rw [lexemes_scan] at ht
    exact hrun.found_at (hfound ▸ mem_tokensOf ht)
  · rw [diagnostics_scan] at hd
    obtain ⟨e, he, rfl⟩ := mem_diagnosticsOf hd
    obtain ⟨m, c, found, hrun, hat⟩ := hrun.found_at (hfound ▸ he)
    exact ⟨m, c, found, hrun, e, rfl, by cases e <;> rfl, hat⟩
  · rw [tokens_scan, offset_after_toList] at ht
    rcases List.mem_append.1 ht with ht | ht
    · exact absurd (beq_iff_eq.1 heof) (lexeme_of_mem ht).kind_ne_eof
    · cases List.mem_singleton.1 ht
      exact Span.clamps_covering (Nat.le_refl _)

end LoxLexer
