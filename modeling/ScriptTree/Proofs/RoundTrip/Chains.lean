import ScriptTree.Proofs.RoundTrip.BlockLines

/-!
# Chains of branches

A further branch of an `if` is a line of the block that the `if` stands in. It is hung into the last
link of the chain that the last item of the block is, with the line break before it.
-/

namespace ScriptTree

open Automaton (Reaches Feeds Delivers ofStack TakesLine AwaitsLine Begins)
open SequenceReader (Heads)

namespace Branch

variable {change : List Entry → List Entry} {form form' : List Entry}

/-- What is put into the chain is its last link: what changes the one changes the other. -/
def EndsChain (chain : List Entry → Tree) : Prop :=
  ∀ (change : List Entry → List Entry) (form form' : List Entry),
    updateTail? change (.ofForm .ifStatement form) = some (.ofForm .ifStatement form') →
    updateTail? change (chain form) = some (chain form')

/-- The form of an `if` without an `else`. -/
structure IsOpen (form : List Entry) : Prop where
  items : .item ∉ Form.roles form
  branch : .slot .elseBranch ∉ Form.roles form

/-- The `else` of a form comes after what is open. -/
theorem IsOpen.updateElse?_eq (h : IsOpen form) (change : List Entry → List Entry)
    (rest : List Entry) :
    updateElse? change (form ++ rest) =
      (updateElse? change rest).map (·.map (form ++ ·)) := by
  have hbranch := h.branch
  clear h
  induction form with
  | nil => simp
  | cons entry form ih =>
    obtain ⟨role, t⟩ := entry
    simp only [Form.roles_cons, List.mem_cons, not_or] at hbranch
    simp [updateElse?, Ne.symm hbranch.1, ih hbranch.2, Option.map_map, Function.comp_def]

/-- An `if` that has no `else` is the last link itself. -/
theorem IsOpen.updateTail?_eq (h : IsOpen form) :
    updateTail? change (.ofForm .ifStatement form) = some (.ofForm .ifStatement (change form)) := by
  have helse : updateElse? change form = none := by
    simpa [updateElse?] using h.updateElse?_eq change []
  simp [Tree.ofForm, updateTail?, helse]

/-- An `elif` is the last link of the chain that it is hung into. -/
theorem EndsChain.within {chain : List Entry → Tree} (h : EndsChain chain) (hform : IsOpen form) :
    EndsChain fun link =>
      chain (form ++ [(Role.slot .elseBranch, Tree.ofForm .ifStatement link)]) := by
  intro change link link' hlink
  have helse :
      updateElse? change (form ++ [(Role.slot .elseBranch, Tree.ofForm .ifStatement link)]) =
        some (some (form ++ [(Role.slot .elseBranch, Tree.ofForm .ifStatement link')])) := by
    simp [hform.updateElse?_eq, updateElse?, hlink]
  refine h change _ _ ?_
  simp only [Tree.ofForm, updateTail?] at helse ⊢
  rw [helse]

/-- The last item of a block is changed in its last link. -/
theorem EndsChain.updateLast?_eq {chain : List Entry → Tree} (h : EndsChain chain)
    (hform : IsOpen form) (change : List Entry → List Entry) (before : List Entry) :
    updateLast? change (before ++ [(Role.item, chain form)]) =
      some (before ++ [(Role.item, chain (change form))]) := by
  rw [updateLast?_append_item, h change form _ hform.updateTail?_eq, Option.map_some]

end Branch

open Branch (EndsChain IsOpen)

variable {config : Config} {mode : BlockMode} {level : Nat} {form link : List Entry}
  {chain : List Entry → Tree} {below : List Reader} {word : Keyword} {nodeKind : NodeKind}
  {a : Automaton}

namespace BlockReader

/-- The word of a further branch: the lines between the branches go to the last link. -/
theorem onWord_branch
    (hword : word = .elifKw ∧ nodeKind = .ifStatement ∨ word = .elseKw ∧ nodeKind = .elseBranch)
    (hchain : EndsChain chain) (hlink : IsOpen link) (trailing : List Tree) :
    (blockAt .statements mode (some level) .itemStart
      (form ++ (Role.item, chain link) :: Form.extras trailing)).onWord (keywordTree word) =
        .ok { state := blockInside .statements mode level .branch
                (form ++ [(Role.item, chain (link ++ Form.extras trailing))])
              opened := [.sequence (seqAt nodeKind level [(.slot .keyword, keywordTree word)]
                (Production.partsAfterKeyword nodeKind))] } := by
  have hsplit := Form.splitTrailing_append_extras (nofun : Role.item ≠ .extra) (chain link) form
    trailing
  have hupdate := hchain.updateLast?_eq hlink (· ++ Form.extras trailing) form
  have hseed : (SequenceReader.start nodeKind level false).seed (keywordTree word) =
      .ok { state := seqAt nodeKind level [(.slot .keyword, keywordTree word)]
              (Production.partsAfterKeyword nodeKind) } := by
    rcases hword with ⟨rfl, rfl⟩ | ⟨rfl, rfl⟩ <;> rfl
  have hbegin : (blockAt .statements mode (some level) .itemStart
      (form ++ (Role.item, chain link) :: Form.extras trailing)).beginBranch nodeKind
        (keywordTree word) =
          .ok { state := blockInside .statements mode level .branch
                  (form ++ [(Role.item, chain (link ++ Form.extras trailing))])
                opened := [.sequence (seqAt nodeKind level [(.slot .keyword, keywordTree word)]
                  (Production.partsAfterKeyword nodeKind))] } := by
    have hform : (blockAt .statements mode (some level) .itemStart
        (form ++ (Role.item, chain link) :: Form.extras trailing)).form =
          form ++ (Role.item, chain link) :: Form.extras trailing := rfl
    have hlevel : (blockAt .statements mode (some level) .itemStart
        (form ++ (Role.item, chain link) :: Form.extras trailing)).itemLevel = level := rfl
    simp only [beginBranch, hform, hlevel, hsplit, hupdate, hseed, bind, Except.bind]
    rfl
  rw [← hbegin]
  rcases hword with ⟨rfl, rfl⟩ | ⟨rfl, rfl⟩ <;> rfl

/-- A branch goes to the last link. -/
theorem onToken_branch {children : List Entry} (hchain : EndsChain chain) (hlink : IsOpen link) :
    (blockAt .statements mode (some level) .itemStart (form ++ [(Role.item, chain link)])).onToken
      .branch (.ofForm nodeKind children) =
        .ok { state := blockAt .statements mode (some level) .afterItem
                (form ++ [(Role.item, chain (link ++
                  [(Role.slot .elseBranch, Tree.ofForm nodeKind children)]))]) } := by
  have hplain : (Tree.ofForm nodeKind children).isTrivia = false ∧
      (Tree.ofForm nodeKind children).isInvalid = false := ⟨rfl, rfl⟩
  have hupdate := hchain.updateLast?_eq hlink
    (Form.setSlot .ifStatement .elseBranch (.ofForm nodeKind children)) form
  rw [Branch.setSlot_elseBranch hlink.items hlink.branch] at hupdate
  have hform : (blockAt .statements mode (some level) .itemStart
      (form ++ [(Role.item, chain link)])).form = form ++ [(Role.item, chain link)] := rfl
  simp only [onToken, hplain, onBranch, hform, hupdate]
  rfl

end BlockReader

/-- A further branch of the chain that ends a block, with the lines of its block. -/
theorem exists_branch (hconfig : config.IsUnlimited) {cs ds : List Char}
    {heading lines : List Entry}
    (hword : word = .elifKw ∧ nodeKind = .ifStatement ∨ word = .elseKw ∧ nodeKind = .elseBranch)
    (hmode : mode.HasLinesAt level) (hchain : EndsChain chain) (hlink : IsOpen link)
    (ha : AwaitsLine config level a (blockAt .statements mode (some level) .afterItem
      (form ++ [(Role.item, chain link), (Role.extra, lineBreak)])) below)
    (hheads : Heads config nodeKind level word cs heading .body .statements)
    (hcs : Begins Signal.EndsWord cs) (hbody : ReadsLines config (level + 1) .statements ds lines)
    (hlines : ∃ before last, lines = before ++ [(Role.item, last)]) :
    ∃ b, Feeds config a (tabs level ++ (word.spelling.toList ++ (cs ++ '\n' :: ds))) b ∧
      AwaitsLine config level b (blockAt .statements mode (some level) .afterItem
        (form ++ [(Role.item, chain (link ++ (Role.extra, lineBreak) :: (indentForm level ++
          [(Role.slot .elseBranch,
            Tree.ofForm nodeKind (heading ++ announcedForm .body .statements lines))]))),
          (Role.extra, lineBreak)])) below := by
  have hline := ha.line level (Nat.le_refl level)
  rw [BlockReader.onLine_eq hmode] at hline
  have hbefore : form ++ [(Role.item, chain link), (Role.extra, lineBreak)] ++ indentForm level =
      form ++ (Role.item, chain link) :: Form.extras (lineBreak :: (indent? level).toList) := by
    simp [indentForm]
  rw [hbefore] at hline
  have hopen : IsOpen (link ++ Form.extras (lineBreak :: (indent? level).toList)) :=
    ⟨by simpa using hlink.items, by simpa using hlink.branch⟩
  have hnode : nodeKind ≠ .memberVariable := by
    rcases hword with ⟨rfl, rfl⟩ | ⟨rfl, rfl⟩ <;> decide
  obtain ⟨b, hfeeds, hawaits⟩ := exists_announced hconfig (by decide) hline
    (BlockReader.onWord_branch hword hchain hlink (lineBreak :: (indent? level).toList)) hheads hcs
    hnode (by decide) hbody hlines (BlockReader.onToken_branch hchain hopen) hmode.ne_single
  refine ⟨b, hfeeds, ?_⟩
  simpa [BlockReader.pushExtras, blockAt, blockInside, indentForm] using hawaits

/-- The characters are read as further branches of the `if` that ends a block: they put the given
children into its last link. -/
def ReadsOthers (config : Config) (level : Nat) (cs : List Char) (added : List Entry) : Prop :=
  ∀ (mode : BlockMode) (form link : List Entry) (chain : List Entry → Tree) (below : List Reader)
    (a : Automaton), mode.HasLinesAt level → EndsChain chain → IsOpen link →
    AwaitsLine config level a (blockAt .statements mode (some level) .afterItem
      (form ++ [(Role.item, chain link), (Role.extra, lineBreak)])) below →
    ∃ b, Feeds config a cs b ∧ AwaitsLine config level b (blockAt .statements mode (some level)
      .afterItem (form ++ [(Role.item, chain (link ++ added)), (Role.extra, lineBreak)])) below

/-- An `elif`, and what follows it. -/
theorem readsOthers_elif (hconfig : config.IsUnlimited) {cs ds es : List Char}
    {heading lines added : List Entry}
    (hheads : Heads config .ifStatement level .elifKw cs heading .body .statements)
    (hcs : Begins Signal.EndsWord cs) (hbody : ReadsLines config (level + 1) .statements ds lines)
    (hlines : ∃ before last, lines = before ++ [(Role.item, last)])
    (hopen : IsOpen (heading ++ announcedForm .body .statements lines))
    (hothers : ReadsOthers config level es added) :
    ReadsOthers config level
      (tabs level ++ (Keyword.elifKw.spelling.toList ++ (cs ++ '\n' :: ds)) ++ es)
      ((.extra, lineBreak) :: (indentForm level ++ [(Role.slot .elseBranch, Tree.ofForm .ifStatement
        (heading ++ announcedForm .body .statements lines ++ added))])) := by
  intro mode form link chain below a hmode hchain hlink ha
  obtain ⟨b, hfeeds, hawaits⟩ := exists_branch hconfig (.inl ⟨rfl, rfl⟩) hmode hchain hlink ha
    hheads hcs hbody hlines
  have hbetween : IsOpen (link ++ (Role.extra, lineBreak) :: indentForm level) :=
    ⟨by simpa [indentForm] using hlink.items, by simpa [indentForm] using hlink.branch⟩
  obtain ⟨b', hfeeds', hawaits'⟩ := hothers mode form
    (heading ++ announcedForm .body .statements lines) _ below b hmode (hchain.within hbetween)
      hopen (by simpa using hawaits)
  exact ⟨b', hfeeds.append hfeeds', by simpa using hawaits'⟩

/-- An `else`, which ends the chain. -/
theorem readsOthers_else (hconfig : config.IsUnlimited) {ds : List Char} {lines : List Entry}
    (hbody : ReadsLines config (level + 1) .statements ds lines)
    (hlines : ∃ before last, lines = before ++ [(Role.item, last)]) :
    ReadsOthers config level (tabs level ++ (Keyword.elseKw.spelling.toList ++ announced ds))
      ((.extra, lineBreak) :: (indentForm level ++ [(Role.slot .elseBranch, Tree.ofForm .elseBranch
        ((.slot .keyword, keywordTree .elseKw) :: announcedForm .body .statements lines))])) := by
  intro mode form link chain below a hmode hchain hlink ha
  have hcs : Begins Signal.EndsWord [':'] :=
    Automaton.begins_cons (Signal.endsWord_ofChar (by decide))
  exact exists_branch hconfig (.inr ⟨rfl, rfl⟩) hmode hchain hlink ha SequenceReader.heads_else hcs
    hbody hlines

/-- An `if` with its further branches. -/
theorem ReadsLines.others {cs ds : List Char} {added : List Entry}
    (h : ReadsLines config level .statements cs
      (indentForm level ++ [(Role.item, Tree.ofForm .ifStatement link)]))
    (hlink : IsOpen link) (hothers : ReadsOthers config level ds added) :
    ReadsLines config level .statements (cs ++ ds)
      (indentForm level ++ [(Role.item, Tree.ofForm .ifStatement (link ++ added))]) := by
  intro mode form below a hmode ha
  obtain ⟨b, hfeeds, hawaits⟩ := h mode form below a hmode ha
  obtain ⟨b', hfeeds', hawaits'⟩ := hothers mode (form ++ indentForm level) link
    (.ofForm .ifStatement) below b hmode (fun _ _ _ h => h) hlink (by simpa using hawaits)
  exact ⟨b', hfeeds.append hfeeds', by simpa using hawaits'⟩

end ScriptTree
