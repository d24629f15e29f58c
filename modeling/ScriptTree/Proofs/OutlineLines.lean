import Mathlib.Data.List.Nodup
import ScriptTree.Proofs.Quoting
import ScriptTree.Tree.Outline

/-!
# Lines of an outline can be read back

The blanks at the beginning of a line tell its depth. What follows up to the first capital is the mark
of the role, then the kind and the byte range follow up to the next blanks, and what is left is the
quoted text of a leaf. So a line and all that stands behind it are told from one another, whatever is
in the text.
-/

namespace ScriptTree

/-! ### Kinds -/

namespace TokenKind

/-- The kinds that are shown by a name alone. -/
def plain : List TokenKind :=
  ([.space, .indentation, .newLine, .carriageReturn, .comment, .lineContinuation, .identifier,
    .number, .string, .nodePath, .invalid] : List LeafKind).map .leaf ++ NodeKind.all.map .node

/-- The name of the kind, and the word, mark or operator that it carries. -/
def words : TokenKind → String × Option String
  | .leaf (.keyword word) => ("Keyword", some word.spelling)
  | .leaf (.punct mark) => ("Punct", some mark.spelling)
  | .leaf (.operator op) => ("Operator", some op.label)
  | kind => (kind.display, none)

@[simp]
theorem words_keyword (word : Keyword) :
    words (.leaf (.keyword word)) = ("Keyword", some word.spelling) := rfl

@[simp]
theorem words_punct (mark : Punct) :
    words (.leaf (.punct mark)) = ("Punct", some mark.spelling) := rfl

@[simp]
theorem words_operator (op : OperatorKind) :
    words (.leaf (.operator op)) = ("Operator", some op.label) := rfl

/-- What a kind carries, as it stands behind the name. -/
def suffix (word? : Option String) : String :=
  (word?.map fun word => "(" ++ word ++ ")").getD ""

theorem suffix_inj {word? word?' : Option String}
    (h : (suffix word?).toList = (suffix word?').toList) : word? = word?' := by
  cases word? <;> cases word?' <;> simp_all [suffix, String.toList_inj]

/-- A kind is plain or carries something. -/
theorem plain_or (kind : TokenKind) :
    (kind ∈ plain ∧ kind.words = (kind.display, none)) ∨
      (∃ word, kind = .leaf (.keyword word)) ∨ (∃ mark, kind = .leaf (.punct mark)) ∨
        ∃ op, kind = .leaf (.operator op) := by
  cases kind with
  | node kind => exact .inl ⟨by simp [plain, NodeKind.mem_all], rfl⟩
  | leaf kind => cases kind <;> simp [plain, words]

/-- Names are written without blanks and parentheses and begin with a capital. -/
theorem plain_names : ∀ kind ∈ plain, '(' ∉ kind.display.toList ∧ ' ' ∉ kind.display.toList ∧
    kind.display.toList.head?.any Char.isUpper := by
  decide +kernel

theorem nodup_plain : (plain.map display).Nodup := by
  decide +kernel

theorem name_spec (kind : TokenKind) : '(' ∉ kind.words.1.toList ∧ ' ' ∉ kind.words.1.toList ∧
    kind.words.1.toList.head?.any Char.isUpper := by
  rcases plain_or kind with ⟨hmem, hwords⟩ | ⟨word, rfl⟩ | ⟨mark, rfl⟩ | ⟨op, rfl⟩
  · rw [hwords]
    exact plain_names kind hmem
  all_goals
    simp only [words_keyword, words_punct, words_operator]
    decide

/-- What a kind carries is written without blanks. -/
theorem blank_notMem_suffix (kind : TokenKind) : ' ' ∉ (suffix kind.words.2).toList := by
  have hword : ∀ word ∈ Keyword.all, ' ' ∉ (suffix (some word.spelling)).toList := by
    decide +kernel
  have hmark : ∀ mark ∈ Punct.all, ' ' ∉ (suffix (some mark.spelling)).toList := by
    decide +kernel
  have hop : ∀ op ∈ OperatorKind.all, ' ' ∉ (suffix (some op.label)).toList := by
    decide +kernel
  rcases plain_or kind with ⟨-, hwords⟩ | ⟨word, rfl⟩ | ⟨mark, rfl⟩ | ⟨op, rfl⟩
  · simp [hwords, suffix]
  · exact hword word word.mem_all
  · exact hmark mark mark.mem_all
  · exact hop op op.mem_all

theorem display_eq (kind : TokenKind) : kind.display = kind.words.1 ++ suffix kind.words.2 := by
  rcases plain_or kind with ⟨-, hwords⟩ | ⟨word, rfl⟩ | ⟨mark, rfl⟩ | ⟨op, rfl⟩
  · rw [hwords]
    exact String.append_empty.symm
  all_goals
    simp only [display, LeafKind.display, LeafKind.describe, words_keyword, words_punct,
      words_operator, suffix, Option.map_some, Option.getD_some, ← String.append_assoc]
    rfl

/-- The name of a kind and what it carries tell the kind. -/
theorem words_inj {kind kind' : TokenKind} (h : kind.words = kind'.words) : kind = kind' := by
  have hop : (OperatorKind.all.map OperatorKind.label).Nodup := by decide +kernel
  rcases plain_or kind with ⟨hmem, hwords⟩ | ⟨word, rfl⟩ | ⟨mark, rfl⟩ | ⟨op, rfl⟩ <;>
    rcases plain_or kind' with ⟨hmem', hwords'⟩ | ⟨word', rfl⟩ | ⟨mark', rfl⟩ | ⟨op', rfl⟩ <;>
    simp [*] at h
  · exact List.inj_on_of_nodup_map nodup_plain hmem hmem' h
  · have hspelling := congrArg Keyword.ofSpelling? h
    rw [Keyword.ofSpelling?_spelling, Keyword.ofSpelling?_spelling] at hspelling
    rw [Option.some.inj hspelling]
  · have hspelling := congrArg Punct.ofSpelling? h
    rw [Punct.ofSpelling?_spelling, Punct.ofSpelling?_spelling] at hspelling
    rw [Option.some.inj hspelling]
  · rw [List.inj_on_of_nodup_map hop op.mem_all op'.mem_all h]

/-- A kind is shown with a capital first. -/
theorem exists_display_eq (kind : TokenKind) :
    ∃ c cs, kind.display.toList = c :: cs ∧ c.isUpper := by
  have hcapital := kind.name_spec.2.2
  cases hname : kind.words.1.toList with
  | nil => simp [hname] at hcapital
  | cons c cs =>
    rw [hname] at hcapital
    exact ⟨c, cs ++ (suffix kind.words.2).toList, by rw [display_eq, String.toList_append, hname,
      List.cons_append], hcapital⟩

/-- A kind and the blank behind it can be read back. -/
theorem readable_display : Readable fun kind : TokenKind => kind.display.toList ++ [' '] := by
  intro kind kind' rest rest' heq
  have hblank (kind : TokenKind) : ' ' ∉ kind.display.toList := by
    rw [display_eq, String.toList_append, List.mem_append, not_or]
    exact ⟨kind.name_spec.2.1, kind.blank_notMem_suffix⟩
  have hname (kind : TokenKind) : ∀ c ∈ kind.words.1.toList, c != '(' := fun c hc =>
    bne_iff_ne.2 fun hparen => kind.name_spec.1 (hparen ▸ hc)
  have hsuffix (word? : Option String) : (suffix word?).toList.takeWhile (· != '(') = [] := by
    cases word? <;> simp [suffix]
  simp only [List.append_assoc, List.singleton_append] at heq
  obtain ⟨hdisplay, hrest⟩ := append_separator_inj (hblank kind) (hblank kind') heq
  rw [display_eq, display_eq, String.toList_append, String.toList_append] at hdisplay
  obtain ⟨hfirst, hsecond⟩ :=
    append_inj_of_takeWhile (hname kind) (hname kind') (hsuffix _) (hsuffix _) hdisplay
  exact ⟨words_inj (Prod.ext (String.toList_inj.1 hfirst) (suffix_inj hsecond)), hrest⟩

end TokenKind

/-! ### Roles -/

namespace Role

/-- The mark of a slot is written without capitals and begins as no other mark does. -/
theorem slotMark_spec (place : Slot) : (slot place).outlineMark.toList.all (!·.isUpper) ∧
    (slot place).outlineMark.toList.head? ∉ [none, some ' ', some '~'] := by
  have hall : ∀ place ∈ Slot.all, (slot place).outlineMark.toList.all (!·.isUpper) ∧
      (slot place).outlineMark.toList.head? ∉ [none, some ' ', some '~'] := by
    decide +kernel
  exact hall place place.mem_all

/-- A mark is written without capitals and does not begin with a blank. -/
theorem mark_spec (role? : Option Role) :
    (∀ c ∈ ((role?.map outlineMark).getD "").toList, !c.isUpper) ∧
      ((role?.map outlineMark).getD "").toList.head? ≠ some ' ' := by
  rw [← List.all_eq_true]
  match role? with
  | some (.slot place) =>
    obtain ⟨hchars, hhead⟩ := slotMark_spec place
    exact ⟨hchars, fun heq => hhead (by rw [Option.map_some, Option.getD_some] at heq; simp [heq])⟩
  | some .item | some .extra | none => decide

/-- The mark of a role tells the role. -/
theorem outlineMark_inj {role role' : Role} (h : role.outlineMark = role'.outlineMark) :
    role = role' := by
  have hslot (place : Slot) : (slot place).outlineMark ≠ item.outlineMark ∧
      (slot place).outlineMark ≠ extra.outlineMark := by
    obtain ⟨-, hhead⟩ := slotMark_spec place
    refine ⟨fun heq => hhead ?_, fun heq => hhead ?_⟩ <;> rw [heq] <;> decide
  match role, role' with
  | .slot place, .slot place' =>
    have hlabel := congrArg String.toList h
    simp only [outlineMark, String.toList_append, List.append_left_inj, String.toList_inj] at hlabel
    rw [Slot.label_inj hlabel]
  | .slot place, .item => exact absurd h (hslot place).1
  | .slot place, .extra => exact absurd h (hslot place).2
  | .item, .slot place => exact absurd h.symm (hslot place).1
  | .extra, .slot place => exact absurd h.symm (hslot place).2
  | .item, .item | .extra, .extra => rfl
  | .item, .extra | .extra, .item => exact absurd h (by decide)

end Role

/-! ### Numbers and lines -/

/-- A number is told from what follows it and is no digit. -/
theorem number_append_inj {n m : Nat} {c c' : Char} {rest rest' : List Char} (hc : ¬ c.isDigit)
    (hc' : ¬ c'.isDigit) (heq : (toString n).toList ++ c :: rest = (toString m).toList ++ c' :: rest') :
    n = m ∧ c :: rest = c' :: rest' := by
  simp only [Nat.toString_eq_ofList_toDigits, String.toList_ofList] at heq
  have hdigits (k : Nat) : ∀ d ∈ Nat.toDigits 10 k, d.isDigit := fun d hd =>
    Nat.isDigit_of_mem_toDigits (by decide) (by decide) hd
  obtain ⟨hnumber, hrest⟩ := append_inj_of_takeWhile (hdigits n) (hdigits m)
    (by simp [hc]) (by simp [hc']) heq
  have hvalue := congrArg (Nat.ofDigitChars 10 · 0) hnumber
  simp only [Nat.ofDigitChars_ten_toDigits] at hvalue
  exact ⟨hvalue, hrest⟩

/-- A byte range is told from what follows it and is no digit. -/
theorem Span.display_append_inj {s s' : Span} {c c' : Char} {rest rest' : List Char}
    (hc : ¬ c.isDigit) (hc' : ¬ c'.isDigit)
    (heq : s.display.toList ++ c :: rest = s'.display.toList ++ c' :: rest') :
    s = s' ∧ c :: rest = c' :: rest' := by
  have hdots : ("..".toList : List Char) = ['.', '.'] := rfl
  simp only [display, String.toList_append, hdots, List.append_assoc, List.cons_append,
    List.nil_append] at heq
  obtain ⟨hstart, hmore⟩ := number_append_inj (by decide) (by decide) heq
  obtain ⟨hstop, hrest⟩ := number_append_inj hc hc' (List.cons.inj (List.cons.inj hmore).2).2
  obtain ⟨start, stop⟩ := s
  obtain ⟨start', stop'⟩ := s'
  exact ⟨by rw [show start = start' from hstart, show stop = stop' from hstop], hrest⟩

namespace Tree.OutlineLine

/-- A line without a role is that of a root. -/
def IsRooted (line : OutlineLine) : Prop :=
  line.role? = none ↔ line.depth = 0

/-- The characters of a line: blanks, the mark and what comes from the kind on. -/
theorem toList_render (line : OutlineLine) : line.render.toList =
    List.replicate (2 * line.depth) ' ' ++ (((line.role?.map Role.outlineMark).getD "").toList ++
      (line.kind.display.toList ++ [' '] ++ (line.span.display.toList ++
        (((line.text?.map fun text => " " ++ Text.quoted text).getD "").toList ++ ['\n'])))) := by
  simp [render]

/-- What a line ends with tells the text. -/
theorem tail_append_inj {text? text?' : Option String} {rest rest' : List Char}
    (heq : ((text?.map fun text => " " ++ Text.quoted text).getD "").toList ++ '\n' :: rest =
      ((text?'.map fun text => " " ++ Text.quoted text).getD "").toList ++ '\n' :: rest') :
    text? = text?' ∧ rest = rest' := by
  cases text? with
  | none =>
    cases text?' with
    | none => exact ⟨rfl, by simpa using heq⟩
    | some text => simp at heq
  | some text =>
    cases text?' with
    | none => simp at heq
    | some text' =>
      simp only [Option.map_some, Option.getD_some, String.toList_append, List.append_assoc] at heq
      obtain ⟨htext, hrest⟩ := Text.readable_quoted _ _ _ _ (List.append_cancel_left heq)
      exact ⟨congrArg some htext, (List.cons.inj hrest).2⟩

/-- Behind the byte range of a line stands no digit. -/
theorem exists_tail_eq (text? : Option String) (rest : List Char) : ∃ c cs,
    ((text?.map fun text => " " ++ Text.quoted text).getD "").toList ++ '\n' :: rest = c :: cs ∧
      ¬ c.isDigit := by
  cases text? with
  | none => exact ⟨'\n', rest, rfl, by decide⟩
  | some text =>
    exact ⟨' ', (Text.quoted text).toList ++ '\n' :: rest, by simp, by decide⟩

/-- The blanks of a line end at its mark or its kind. -/
theorem takeWhile_blank_mark (role? : Option Role) (kind : TokenKind) (rest : List Char) :
    (((role?.map Role.outlineMark).getD "").toList ++ (kind.display.toList ++ rest)).takeWhile
      (· == ' ') = [] := by
  obtain ⟨-, hmark⟩ := Role.mark_spec role?
  obtain ⟨c, cs, hkind, hcapital⟩ := kind.exists_display_eq
  cases hchars : ((role?.map Role.outlineMark).getD "").toList with
  | nil =>
    have hne : c ≠ ' ' := fun heq => by simp [heq] at hcapital
    simp [hkind, hne]
  | cons d ds =>
    have hne : d ≠ ' ' := fun heq => hmark (by simp [hchars, heq])
    simp [hne]

/-- A line can be read back, whatever follows it. -/
theorem render_append_inj {line line' : OutlineLine} (h : line.IsRooted) (h' : line'.IsRooted)
    {rest rest' : List Char}
    (heq : line.render.toList ++ rest = line'.render.toList ++ rest') :
    line = line' ∧ rest = rest' := by
  obtain ⟨depth, role?, kind, span, text?⟩ := line
  obtain ⟨depth', role?', kind', span', text?'⟩ := line'
  rw [toList_render, toList_render] at heq
  simp only [List.append_assoc, List.singleton_append] at heq
  -- the blanks, and with them the depth
  obtain ⟨hblanks, hmarked⟩ := append_inj_of_takeWhile (p := (· == ' ')) (by simp) (by simp)
    (takeWhile_blank_mark _ _ _) (takeWhile_blank_mark _ _ _) heq
  have hdepth : depth = depth' := by
    have hlength := congrArg List.length hblanks
    simp only [List.length_replicate] at hlength
    omega
  -- the mark, which ends where the kind begins
  have hcapital (kind : TokenKind) (rest : List Char) :
      (kind.display.toList ++ rest).takeWhile (fun c => !c.isUpper) = [] := by
    obtain ⟨c, cs, hkind, hc⟩ := kind.exists_display_eq
    simp [hkind, hc]
  obtain ⟨hmark, hshown⟩ := append_inj_of_takeWhile (Role.mark_spec role?).1
    (Role.mark_spec role?').1 (hcapital _ _) (hcapital _ _) hmarked
  have hrole : role? = role?' := by
    simp only [IsRooted] at h h'
    cases role? with
    | none => cases role?' with
      | none => rfl
      | some role' => simp_all
    | some role => cases role?' with
      | none => simp_all
      | some role' => exact congrArg some (Role.outlineMark_inj (String.toList_inj.1 hmark))
  obtain ⟨hkind, hplaced⟩ := TokenKind.readable_display kind kind' _ _ (by simpa using hshown)
  -- the byte range, which ends where no digit follows
  obtain ⟨c, cs, htail, hc⟩ := exists_tail_eq text? rest
  obtain ⟨c', cs', htail', hc'⟩ := exists_tail_eq text?' rest'
  rw [htail, htail'] at hplaced
  obtain ⟨hspan, htails⟩ := Span.display_append_inj hc hc' hplaced
  rw [← htail, ← htail'] at htails
  obtain ⟨htext, hrest⟩ := tail_append_inj htails
  exact ⟨by rw [hdepth, hrole, hkind, hspan, htext], hrest⟩

/-- Lines can be read back from the text that they make together. -/
theorem flatMap_render_inj {lines lines' : List OutlineLine} (h : ∀ line ∈ lines, line.IsRooted)
    (h' : ∀ line ∈ lines', line.IsRooted)
    (heq : (lines.flatMap fun line => line.render.toList) =
      lines'.flatMap fun line => line.render.toList) : lines = lines' := by
  have hne (line : OutlineLine) : line.render.toList ≠ [] := by simp [toList_render]
  induction lines generalizing lines' with
  | nil =>
    cases lines' with
    | nil => rfl
    | cons line' rest' => simp [hne] at heq
  | cons line rest ih =>
    cases lines' with
    | nil => simp [hne] at heq
    | cons line' rest' =>
      rw [List.flatMap_cons, List.flatMap_cons] at heq
      obtain ⟨rfl, hrest⟩ :=
        render_append_inj (h line List.mem_cons_self) (h' line' List.mem_cons_self) heq
      rw [ih (fun line hline => h line (List.mem_cons_of_mem _ hline))
        (fun line hline => h' line (List.mem_cons_of_mem _ hline)) hrest]

end Tree.OutlineLine

end ScriptTree
