import ScriptTree.Proofs.Literals.Escapes

/-!
# A quoted text denotes the text

How a text is written between quotes does not end the literal early: a quote inside never stands
without a backslash, and neither does a line break that the style does not allow. So the scanner reads
the literal to its end, what it takes for the body is what was written there, and each character is
written as a piece that denotes it.
-/

namespace ScriptTree

namespace StringScan

/-- Reading goes on behind a part that belongs to the literal. -/
theorem feedAll_append {scan next : StringScan} {part : List Char}
    (h : scan.feedAll part = (next, [])) (rest : List Char) :
    scan.feedAll (part ++ rest) = next.feedAll rest := by
  induction part generalizing scan with
  | nil =>
    obtain rfl := congrArg Prod.fst h
    rfl
  | cons c part ih =>
    rw [List.cons_append, feedAll]
    rw [feedAll] at h
    split at h
    · cases h
    · exact ih h

/-- A literal of a style and a mark, as far as it is read. -/
def within (style : StringStyle) (mark : StringMark) (phase : StringPhase) : StringScan :=
  ⟨phase, mark, style.quote, style.isTriple⟩

@[simp]
theorem style_within (style : StringStyle) (mark : StringMark) (phase : StringPhase) :
    (within style mark phase).style = style := by
  cases style <;> rfl

variable {style : StringStyle} {mark : StringMark} {phase : StringPhase}

/-- Between the quotes. A single quote may still turn out to be the first of three. -/
def IsInside (style : StringStyle) (phase : StringPhase) : Prop :=
  phase = .body ∨ (phase = .openedOnce ∧ style.isTriple = false)

/-- Behind the quotes at the end. -/
def IsClosed (phase : StringPhase) : Prop :=
  phase = .done ∨ phase = .openedTwice

theorem isTerminated_within (h : IsClosed phase) : (within style mark phase).isTerminated := by
  rcases h with rfl | rfl <;> rfl

theorem feedAll_opening (style : StringStyle) (mark : StringMark) :
    ∃ phase, IsInside style phase ∧
      start.feedAll (mark.spelling ++ style.delimiter) = (within style mark phase, []) := by
  cases style with
  | double | single => exact ⟨.openedOnce, .inr ⟨rfl, rfl⟩, by cases mark <;> rfl⟩
  | tripleDouble | tripleSingle => exact ⟨.body, .inl rfl, by cases mark <;> rfl⟩

/-- Between the quotes, a character that is not the quote belongs to the body. -/
theorem feed_inside {c : Char} (h : IsInside style phase) (hc : c ≠ style.quote) :
    (within style mark phase).feed c = (within style mark phase).feedBody c := by
  obtain rfl | ⟨rfl, -⟩ := h
  · rfl
  · exact if_neg hc

theorem backslash_ne_quote (style : StringStyle) : '\\' ≠ style.quote := by
  cases style <;> decide

/-- The way a character is written between the quotes stays between the quotes. -/
theorem feedAll_quoteChar (h : IsInside style phase) (c : Char) :
    (within style mark phase).feedAll (StringLiteral.quoteChar style c) =
      (within style mark .body, []) := by
  have hescape (e : Char) :
      (within style mark phase).feedAll ['\\', e] = (within style mark .body, []) := by
    rw [feedAll, feed_inside h (backslash_ne_quote style)]
    rfl
  unfold StringLiteral.quoteChar
  split_ifs with hbackslash hquote hfeed hreturn
  · exact hescape '\\'
  · exact hescape c
  · exact hescape 'n'
  · exact hescape 'r'
  · have hinside : c ≠ (within style mark phase).quote := hquote
    have hbreak : ¬ ((c = '\n' ∨ c = '\r') ∧ (within style mark phase).triple = false) := by
      rintro ⟨rfl | rfl, htriple⟩
      · exact hfeed ⟨rfl, htriple⟩
      · exact hreturn rfl
    rw [feedAll, feed_inside h hquote, feedBody, if_neg hbackslash, if_neg hinside,
      if_neg hbreak]
    rfl

theorem feedAll_body (mark : StringMark) (h : IsInside style phase) (text : List Char) :
    ∃ next, IsInside style next ∧
    (within style mark phase).feedAll (text.flatMap (StringLiteral.quoteChar style)) =
      (within style mark next, []) := by
  induction text generalizing phase with
  | nil => exact ⟨phase, h, rfl⟩
  | cons c text ih =>
    rw [List.flatMap_cons, feedAll_append (feedAll_quoteChar h c)]
    exact ih (.inl rfl)

theorem feedAll_closing (mark : StringMark) (h : IsInside style phase) : ∃ next, IsClosed next ∧
    (within style mark phase).feedAll style.delimiter = (within style mark next, []) := by
  obtain rfl | ⟨rfl, htriple⟩ := h
  · exact ⟨.done, .inl rfl, by cases style <;> rfl⟩
  · refine ⟨.openedTwice, .inr rfl, ?_⟩
    cases style with
    | double | single => rfl
    | tripleDouble | tripleSingle => cases htriple

/-- A quoted text is read to its end. -/
theorem feedAll_quote (text : String) (style : StringStyle) (mark : StringMark) :
    ∃ phase, IsClosed phase ∧
      start.feedAll (StringLiteral.quote text style mark).toList = (within style mark phase, []) := by
  obtain ⟨opened, hopened, hopening⟩ := feedAll_opening style mark
  obtain ⟨inside, hinside, hbody⟩ := feedAll_body mark hopened text.toList
  obtain ⟨closed, hclosed, hclosing⟩ := feedAll_closing mark hinside
  refine ⟨closed, hclosed, ?_⟩
  rw [StringLiteral.quote, String.toList_ofList, List.append_assoc, feedAll_append hopening,
    feedAll_append hbody, hclosing]

end StringScan

namespace StringLiteral

/-- A character is written as a piece that denotes it. -/
theorem piece_quoteChar (style : StringStyle) (c : Char) : Piece (quoteChar style c) [c] := by
  unfold quoteChar
  split_ifs with hbackslash hquote hfeed hreturn
  · subst hbackslash
    exact .letter (by decide)
  · subst hquote
    exact .letter (by cases style <;> decide)
  · obtain ⟨rfl, -⟩ := hfeed
    exact .letter (by decide)
  · subst hreturn
    exact .letter (by decide)
  · exact .plain hbackslash

/-- No character is written as a line break behind a backslash. -/
theorem quoteChar_ne_joined (style : StringStyle) (c : Char) :
    quoteChar style c ≠ ['\\', '\r'] := by
  intro h
  have hpiece := piece_quoteChar style c
  rw [h] at hpiece
  cases hpiece with
  | letter he => revert he; simp [letters]
  | code he hwidth => revert he; simp [widths]

/-- The body of a quoted text denotes the text. -/
theorem unescapeChars_flatMap_quoteChar (style : StringStyle) (text : List Char) :
    unescapeChars (text.flatMap (quoteChar style)) = .ok text := by
  induction text with
  | nil => exact unescapeChars_nil
  | cons c text ih =>
    have hpiece : Taken (quoteChar style c, [c]) := .inl (piece_quoteChar style c)
    rw [List.flatMap_cons,
      unescapeChars_append hpiece fun h => absurd h (quoteChar_ne_joined style c), ih]
    rfl

/-- A quoted text is one complete literal of its style and mark, and denotes the text. -/
theorem value_quote (text : String) (style : StringStyle) (mark : StringMark) :
    value (quote text style mark) = .ok text ∧
    ∃ scan, StringScan.start.feedAll (quote text style mark).toList = (scan, []) ∧
      scan.isTerminated ∧ scan.style = style ∧ scan.mark = mark := by
  obtain ⟨phase, hclosed, hscan⟩ := StringScan.feedAll_quote text style mark
  have hterminated : (StringScan.within style mark phase).isTerminated :=
    StringScan.isTerminated_within hclosed
  have hmark : (StringScan.within style mark phase).mark = mark := rfl
  refine ⟨?_, _, hscan, hterminated, StringScan.style_within style mark phase, hmark⟩
  have hbody : ((quote text style mark).toList.drop
      (mark.spelling.length + style.delimiter.length)) =
        text.toList.flatMap (quoteChar style) ++ style.delimiter := by
    rw [quote, String.toList_ofList, List.append_assoc]
    exact List.drop_left' List.length_append
  simp only [value, hscan, hterminated, StringScan.style_within, hmark, hbody]
  simp [unescapeChars_flatMap_quoteChar, Except.map]

end StringLiteral

end ScriptTree
