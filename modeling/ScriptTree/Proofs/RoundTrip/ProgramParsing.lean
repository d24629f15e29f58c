import ScriptTree.Proofs.RoundTrip.Chains
import ScriptTree.Proofs.RoundTrip.ExprParsing

/-!
# Programs parse back

The text of a program parses as the tree of the program: indentation says which lines belong to
which block, and which `if` a further branch belongs to.
-/

namespace ScriptTree

open Automaton (Reaches Feeds Delivers ofStack Begins)
open Branch (IsOpen)

variable {config : Config} {level : Nat}

/-- A blank ends the reserved word of a heading. -/
theorem begins_endsWord_blank (cs : List Char) : Begins Signal.EndsWord (' ' :: cs) :=
  (Automaton.begins_blank cs).mono Signal.endsWord_of_isBlank

theorem Statements.exists_lines_eq (p : Statements) (level : Nat) :
    ∃ before last, p.lines level = before ++ [(.item, last)] := by
  match p with
  | .last s => exact ⟨indentForm level, s.tree level, by rw [Statements.lines]⟩
  | .more s rest =>
    obtain ⟨before, last, h⟩ := rest.exists_lines_eq level
    exact ⟨indentForm level ++ (.item, s.tree level) :: (.extra, lineBreak) :: before, last, by
      simp [Statements.lines, h]⟩

theorem Members.exists_lines_eq (p : Members) (level : Nat) :
    ∃ before last, p.lines level = before ++ [(.item, last)] := by
  match p with
  | .last m => exact ⟨indentForm level, m.tree level, by rw [Members.lines]⟩
  | .more m rest =>
    obtain ⟨before, last, h⟩ := rest.exists_lines_eq level
    exact ⟨indentForm level ++ (.item, m.tree level) :: (.extra, lineBreak) :: before, last, by
      simp [Members.lines, h]⟩

/-- An `if` has no `else` yet when its body has been read. -/
theorem isOpen_conditioned (word : Keyword) (condition : Condition) (lines : List Entry) :
    IsOpen (conditionedForm word condition ++ announcedForm .body .statements lines) :=
  ⟨by simp [conditionedForm, announcedForm], by simp [conditionedForm, announcedForm]⟩

mutual

/-- The lines of a statement are read as the statement. -/
theorem Statement.readsLines (hconfig : config.IsUnlimited) (s : Statement) (level : Nat) :
    ReadsLines config level .statements (s.chars level)
      (indentForm level ++ [(.item, s.tree level)]) := by
  match s with
  | .simple s =>
    simpa [Statement.chars, Statement.tree] using readsLines_simple hconfig s
  | .expression name =>
    simpa [Statement.chars, Statement.tree] using readsLines_expression hconfig name
  | .conditional condition body others =>
    have hbody := body.readsLines hconfig (level + 1)
    have hothers := others.readsOthers hconfig level
    have hif : BlockReader.Opens .statements level .ifKw .ifStatement :=
      ⟨by decide, fun _ _ => rfl, rfl, nofun, nofun⟩
    have hheads := SequenceReader.heads_conditioned hconfig (.inl rfl) level .ifKw condition
    have h := readsLines_announced hconfig (by decide) hif hheads (begins_endsWord_blank _) nofun
      (by decide) hbody (body.exists_lines_eq _)
    simpa [Statement.chars, Statement.tree, conditioned, announced] using
      h.others (isOpen_conditioned _ _ _) hothers
  | .whileLoop condition body =>
    have hbody := body.readsLines hconfig (level + 1)
    have hwhile : BlockReader.Opens .statements level .whileKw .whileStatement :=
      ⟨by decide, fun _ _ => rfl, rfl, nofun, nofun⟩
    have hheads := SequenceReader.heads_conditioned hconfig (.inr rfl) level .whileKw condition
    have h := readsLines_announced hconfig (by decide) hwhile hheads (begins_endsWord_blank _) nofun
      (by decide) hbody (body.exists_lines_eq _)
    simpa [Statement.chars, Statement.tree, conditioned, announced] using h
  | .forLoop name collection body =>
    have hbody := body.readsLines hconfig (level + 1)
    have hfor : BlockReader.Opens .statements level .forKw .forStatement :=
      ⟨by decide, fun _ _ => rfl, rfl, nofun, nofun⟩
    have hheads := SequenceReader.heads_for hconfig level name collection
    have h := readsLines_announced hconfig (by decide) hfor hheads (begins_endsWord_blank _) nofun
      (by decide) hbody (body.exists_lines_eq _)
    simpa [Statement.chars, Statement.tree, conditioned, named, announced] using h

/-- The lines of statements are read as the statements. -/
theorem Statements.readsLines (hconfig : config.IsUnlimited) (p : Statements) (level : Nat) :
    ReadsLines config level .statements (p.chars level) (p.lines level) := by
  match p with
  | .last s => simpa [Statements.chars, Statements.lines] using s.readsLines hconfig level
  | .more s rest =>
    have hfirst := s.readsLines hconfig level
    have hrest := rest.readsLines hconfig level
    simpa [Statements.chars, Statements.lines] using hfirst.append hrest

/-- The lines of further branches are read as the branches. -/
theorem Others.readsOthers (hconfig : config.IsUnlimited) (others : Others) (level : Nat) :
    ReadsOthers config level (others.chars level) (others.form level) := by
  match others with
  | .none =>
    intro mode form link chain below a hmode hchain hlink ha
    exact ⟨a, by simpa [Others.chars] using .nil a, by simpa [Others.form] using ha⟩
  | .elif condition body others =>
    have hbody := body.readsLines hconfig (level + 1)
    have hothers := others.readsOthers hconfig level
    have hheads := SequenceReader.heads_conditioned hconfig (.inl rfl) level .elifKw condition
    have h := readsOthers_elif hconfig hheads (begins_endsWord_blank _) hbody
      (body.exists_lines_eq _) (isOpen_conditioned _ _ _) hothers
    simpa [Others.chars, Others.form, conditioned, announced] using h
  | .otherwise body =>
    have hbody := body.readsLines hconfig (level + 1)
    simpa [Others.chars, Others.form] using
      readsOthers_else hconfig hbody (body.exists_lines_eq _)

end

mutual

/-- The lines of a member are read as the member. -/
theorem Member.readsLines (hconfig : config.IsUnlimited) (m : Member) (level : Nat) :
    ReadsLines config level .members (m.chars level)
      (indentForm level ++ [(.item, m.tree level)]) := by
  match m with
  | .variable name =>
    simpa [Member.chars, Member.tree] using readsLines_variable hconfig name
  | .method name body =>
    have hbody := body.readsLines hconfig (level + 1)
    have hfunc : BlockReader.Opens .members level .funcKw .method :=
      ⟨by decide, fun _ _ => rfl, rfl, nofun, nofun⟩
    have hheads := SequenceReader.heads_method hconfig level name
    have h := readsLines_announced hconfig (by decide) hfunc hheads (begins_endsWord_blank _) nofun
      (by decide) hbody (body.exists_lines_eq _)
    simpa [Member.chars, Member.tree, named, announced] using h
  | .innerClass name body =>
    have hbody := body.readsLines hconfig (level + 1)
    have hclass : BlockReader.Opens .members level .classKw .innerClass :=
      ⟨by decide, fun _ _ => rfl, rfl, nofun, nofun⟩
    have hheads := SequenceReader.heads_innerClass hconfig level name
    have h := readsLines_announced hconfig (by decide) hclass hheads (begins_endsWord_blank _) nofun
      (by decide) hbody (body.exists_lines_eq _)
    simpa [Member.chars, Member.tree, named, announced] using h

/-- The lines of members are read as the members. -/
theorem Members.readsLines (hconfig : config.IsUnlimited) (p : Members) (level : Nat) :
    ReadsLines config level .members (p.chars level) (p.lines level) := by
  match p with
  | .last m => simpa [Members.chars, Members.lines] using m.readsLines hconfig level
  | .more m rest =>
    have hfirst := m.readsLines hconfig level
    have hrest := rest.readsLines hconfig level
    simpa [Members.chars, Members.lines] using hfirst.append hrest

end

/-! ### Well-formed trees -/

@[simp]
theorem isWellFormed_lineBreak : lineBreak.isWellFormed = true := rfl

@[simp]
theorem isWellFormed_indentForm (level : Nat) :
    ((indentForm level).all fun entry => entry.2.isWellFormed) = true := by
  rw [indentForm, indent?]
  split <;> simp [indentTree]

@[simp]
theorem isWellFormed_conditionedForm (word : Keyword) (condition : Condition) :
    ((conditionedForm word condition).all fun entry => entry.2.isWellFormed) = true := by
  simp [conditionedForm, condition.expr.isWellFormed_tree]

@[simp]
theorem isWellFormed_namedForm (word : Keyword) (slot : Slot) (name : Name) :
    ((namedForm word slot name).all fun entry => entry.2.isWellFormed) = true := by
  simp [namedForm]

@[simp]
theorem isWellFormed_forForm (name : Name) (collection : Condition) :
    ((forForm name collection).all fun entry => entry.2.isWellFormed) = true := by
  simp [forForm, collection.expr.isWellFormed_tree]

@[simp]
theorem isWellFormed_announcedForm (slot : Slot) (kind : BlockKind) (lines : List Entry) :
    ((announcedForm slot kind lines).all fun entry => entry.2.isWellFormed) =
      lines.all fun entry => entry.2.isWellFormed := by
  simp [announcedForm, bodyTree]

mutual

/-- The tree of a statement has no text without a place. -/
theorem Statement.isWellFormed_tree (s : Statement) (level : Nat) :
    (s.tree level).isWellFormed = true := by
  match s with
  | .simple s => simp [Statement.tree]
  | .expression name => simp [Statement.tree]
  | .conditional condition body others =>
    have hbody := body.isWellFormed_lines (level + 1)
    have hothers := others.isWellFormed_form level
    simp [Statement.tree, hbody, hothers]
  | .whileLoop condition body =>
    have hbody := body.isWellFormed_lines (level + 1)
    simp [Statement.tree, hbody]
  | .forLoop name collection body =>
    have hbody := body.isWellFormed_lines (level + 1)
    simp [Statement.tree, hbody]

/-- The trees of statements have no text without a place. -/
theorem Statements.isWellFormed_lines (p : Statements) (level : Nat) :
    ((p.lines level).all fun entry => entry.2.isWellFormed) = true := by
  match p with
  | .last s =>
    have hlast := s.isWellFormed_tree level
    simp [Statements.lines, hlast]
  | .more s rest =>
    have hfirst := s.isWellFormed_tree level
    have hrest := rest.isWellFormed_lines level
    simp [Statements.lines, hfirst, hrest]

/-- The trees of further branches have no text without a place. -/
theorem Others.isWellFormed_form (others : Others) (level : Nat) :
    ((others.form level).all fun entry => entry.2.isWellFormed) = true := by
  match others with
  | .none => simp [Others.form]
  | .elif condition body others =>
    have hbody := body.isWellFormed_lines (level + 1)
    have hothers := others.isWellFormed_form level
    simp [Others.form, hbody, hothers]
  | .otherwise body =>
    have hbody := body.isWellFormed_lines (level + 1)
    simp [Others.form, hbody]

end

mutual

/-- The tree of a member has no text without a place. -/
theorem Member.isWellFormed_tree (m : Member) (level : Nat) :
    (m.tree level).isWellFormed = true := by
  match m with
  | .variable name => simp [Member.tree]
  | .method name body =>
    have hbody := body.isWellFormed_lines (level + 1)
    simp [Member.tree, hbody]
  | .innerClass name body =>
    have hbody := body.isWellFormed_lines (level + 1)
    simp [Member.tree, hbody]

/-- The trees of members have no text without a place. -/
theorem Members.isWellFormed_lines (p : Members) (level : Nat) :
    ((p.lines level).all fun entry => entry.2.isWellFormed) = true := by
  match p with
  | .last m =>
    have hlast := m.isWellFormed_tree level
    simp [Members.lines, hlast]
  | .more m rest =>
    have hfirst := m.isWellFormed_tree level
    have hrest := rest.isWellFormed_lines level
    simp [Members.lines, hfirst, hrest]

end

/-- A text that is nothing but a program is read as the lines of the outermost block. -/
theorem Members.reaches (hconfig : config.IsUnlimited) (p : Members) :
    Reaches config (· = .endOfText) (ofStack [Entrance.file.reader]) (p.chars 0)
      (ofStack [.block (blockAt .members .root (some 0) .afterItem
        (p.lines 0 ++ [(.extra, lineBreak)]))]) := by
  have hmode : BlockMode.HasLinesAt 0 .root := rfl
  have hroot : Automaton.AwaitsLine config 0 (ofStack [Entrance.file.reader])
      (blockAt .members .root (some 0) .afterItem []) [] :=
    BlockReader.awaitsLine_lineStart hconfig hmode (by decide)
  have hfirst := hroot.line 0 (Nat.le_refl 0)
  rw [BlockReader.onLine_eq hmode] at hfirst
  obtain ⟨b, hfeeds, hawaits⟩ := p.readsLines hconfig 0 .root [] [] _ hmode hfirst
  refine ⟨b, hfeeds, ?_⟩
  rintro signal d rfl hd
  exact hawaits.endOfText d hd

/-- A program parses back: its text has exactly its tree, in which every line stands in its block
and every branch in its chain, and of which every leaf has a place. -/
theorem parse_print_program (hconfig : config.IsUnlimited) (p : Members) :
    parse .file config p.print = .ok p.tree.placed ∧ p.tree.placed.isWellFormed = true := by
  constructor
  · have hreaches := p.reaches hconfig
    have hfinish : (blockAt .members .root (some 0) .afterItem
        (p.lines 0 ++ [(.extra, lineBreak)])).finish =
          { token := some (.ofForm .classMembersList (p.lines 0)), trailing := [lineBreak] } :=
      BlockReader.finish_lines rfl rfl rfl (p.exists_lines_eq 0)
    have hend : Delivers config .endOfText _ (Automaton.ofDelivery _) :=
      Automaton.delivers_endOfText BlockReader.onSignal_endOfText (congrArg Except.ok hfinish)
    have hassemble : Tree.assemble .file
        [(.slot .members, .ofForm .classMembersList (p.lines 0)), (.extra, lineBreak)] =
          .ok p.tree := rfl
    rw [← String.toList_ofList (l := p.chars 0)] at hreaches
    refine Automaton.Reaches.parse_eq hconfig .file hreaches rfl hend ?_
    simpa [Entrance.rootOf, Entrance.surround, Tree.ofForm, bind, Except.bind] using hassemble
  · simp [Members.tree, p.isWellFormed_lines]

/-- A class in which a method has a chain of branches with a loop in its first one, and a variable
after the class. -/
theorem parse_print_program_class : ∃ p : Members,
    p.print = "class A:\n\tfunc f():\n\t\tif a:\n\t\t\twhile true:\n\t\t\t\tbreak\n" ++
      "\t\telif not b:\n\t\t\tpass\n\t\telse:\n\t\t\tx\n\t\tfor i in [c]:\n\t\t\tcontinue\n" ++
      "\t\treturn\nvar y\n" ∧
    Config.unlimited.IsUnlimited ∧ parse .file .unlimited p.print = .ok p.tree.placed ∧
      p.tree.placed.isWellFormed = true := by
  refine ⟨.more (.innerClass ⟨"A", by decide, by decide⟩ (.last (.method ⟨"f", by decide, by decide⟩
    (.more (.conditional ⟨.primary (.name ⟨"a", by decide, by decide⟩), by cbv⟩
        (.last (.whileLoop ⟨.primary (.constant ⟨.trueKw, rfl⟩), by cbv⟩
          (.last (.simple .breakLoop))))
        (.elif ⟨.prefixed ⟨"not", .not, rfl⟩ (.primary (.name ⟨"b", by decide, by decide⟩)), by cbv⟩
          (.last (.simple .pass)) (.otherwise (.last (.expression ⟨"x", by decide, by decide⟩)))))
      (.more (.forLoop ⟨"i", by decide, by decide⟩
          ⟨.primary (.array [.primary (.name ⟨"c", by decide, by decide⟩)]), by cbv⟩
          (.last (.simple .continueLoop)))
        (.last (.simple .returnNothing)))))))
    (.last (.variable ⟨"y", by decide, by decide⟩)), by cbv, ⟨rfl, rfl⟩, ?_⟩
  exact parse_print_program ⟨rfl, rfl⟩ _

end ScriptTree
