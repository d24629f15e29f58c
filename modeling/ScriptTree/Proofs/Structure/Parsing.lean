import ScriptTree.Proofs.Parsing
import ScriptTree.Proofs.Structure.Placement
import ScriptTree.Proofs.Structure.Runs

/-!
# The structure of parsed trees

Whatever the text, operators stand below each other in the order of their precedence, and the extras
of a node are what the grammar has no place for. Operands that an `else` without a place leaves
behind are the only exception.
-/

namespace ScriptTree

/-- A property of every node may be weakened. -/
theorem Tree.EveryNode.mono {P Q : NodeKind → List Entry → Prop} {t : Tree} (h : t.EveryNode P)
    (hPQ : ∀ {kind form}, P kind form → Q kind form) : t.EveryNode Q := by
  induction h with
  | leaf kind text extent => exact .leaf _ _ _
  | node extent own children ih => exact .node _ (hPQ own) ih

namespace Form

variable {a : Allowance} {kind : NodeKind} {form form' : List Entry}

@[simp]
theorem roles_placeForm (start : Position) (form : List Entry) :
    roles (Tree.placeForm start form).1 = roles form := by
  induction form generalizing start with
  | nil => rfl
  | cons entry rest ih =>
    obtain ⟨role, t⟩ := entry
    simp [Tree.placeForm, ih]

/-- Only the occupants of slots matter for whether operands bind in order. -/
theorem BindsInOrder.of_occupant? (h : BindsInOrder kind form)
    (hform : ∀ slot, occupant? slot form' = occupant? slot form) : BindsInOrder kind form' := by
  unfold BindsInOrder operator? at *
  simpa only [hform] using h

/-- Tidy extras may be put around the children of a node. -/
theorem IsRegular.surround {leading trailing : List Tree} (h : IsRegular kind form)
    (hregular : ∀ entry ∈ form, entry.2.Regular) (hleading : Tidy {} (extras leading))
    (htrailing : Tidy {} (extras trailing)) (extent : Extent) :
    (Tree.node kind (extras leading ++ form ++ extras trailing) extent).Regular := by
  have htidy : Tidy {} (extras leading ++ form ++ extras trailing) :=
    (hleading.append ⟨h.fit, h.loose, hregular⟩).append htrailing
  have hsuits : Suits kind (extras leading ++ form ++ extras trailing) :=
    ((suits_extras kind leading).append h.suits (by simp)).append (suits_extras kind trailing)
      (by simp)
  refine .node _ ⟨⟨htidy.fit, h.order.of_occupant? fun slot => ?_, hsuits⟩, h.inner, htidy.loose⟩
    htidy.regular
  simp

/-- A form without slots and items is tidy as a list of extras. -/
theorem Tidy.extras_of_items (h : Tidy a form) (hslots : slots form = [])
    (hitems : items form = []) : Tidy a (extras (form.map Prod.snd)) := by
  rw [items, List.map_eq_nil_iff, List.filter_eq_nil_iff] at hitems
  rwa [← eq_extras_of_slots hslots fun entry hentry hrole => hitems entry hentry (by simp [hrole])]

end Form

namespace Entrance

variable {entrance : Entrance} {d : Delivery} {form : List Entry} {t : Tree}

/-- The kind of node that is read first of all. -/
def topKind : Entrance → NodeKind
  | .file => .classMembersList
  | .statements | .statement => .statementsList
  | .expression => .expressionStatement

/-- The kinds of nodes that the root may be. -/
def Roots : Entrance → NodeKind → Prop
  | .file, kind => kind = .file
  | .statements, kind => kind = .statementsList
  | .statement, kind => kind ≠ .file
  | .expression, kind => kind = .expressionStatement

/-- A tree of lawful nodes whose root is one that is read from the entry point. No whole script
stands inside another one, and the list of a script comes first in it. -/
structure Reads (entrance : Entrance) (t : Tree) : Prop where
  lawful : t.EveryNode Form.IsLawful
  roots : ∃ kind, t.nodeKind? = some kind ∧ entrance.Roots kind
  inner : ∀ entry ∈ t.form, entry.2.EveryNode fun kind _ => kind ≠ .file
  list : t.nodeKind? = some .file → ∀ entry ∈ t.form.tail, entry.2.isLines = false

/-- What the outermost state delivers: its node, with extras around it. A list has no slots. -/
structure Delivers (entrance : Entrance) (form : List Entry) (d : Delivery) : Prop where
  leading : Form.Tidy {} (Form.extras d.leading)
  token : d.token = some (.ofForm entrance.topKind form)
  regular : (Tree.ofForm entrance.topKind form).Regular
  slots : entrance ≠ .expression → Form.slots form = []
  trailing : Form.Tidy {} (Form.extras d.trailing)

/-- Regular nodes are lawful. -/
theorem reads_of_regular {kind : NodeKind} {extent : Extent}
    (h : (Tree.node kind form extent).Regular) (hroots : entrance.Roots kind) :
    entrance.Reads (.node kind form extent) := by
  refine ⟨h.mono Form.IsRegular.toIsLawful, ⟨kind, rfl, hroots⟩, ?_, fun hfile => ?_⟩
  · cases h with
    | node _ _ children =>
      exact fun entry hentry => (children entry hentry).mono Form.IsRegular.inner
  · cases h with
    | node _ own _ => exact absurd (Option.some.inj hfile) own.inner

/-- Every text is read in order from every entry point. -/
theorem run_delivers (entrance : Entrance) (config : Config) (text : String) :
    Promises (Automaton.run config entrance.reader text) fun result =>
      ∃ form, entrance.Delivers form result.1 := by
  obtain ⟨hrests, houter, hempty⟩ := entrance.reader_rests
  have htoken : Meets True (Automaton.run config entrance.reader text) fun result =>
      (∃ kind form, result.1.token = some (.ofForm kind form)) ∧ _ :=
    Automaton.run_meets (fun _ => trivial) (fun _ => trivial) hrests houter hempty text
  have horder : Promises (Automaton.run config entrance.reader text)
      fun result => result.1.FitsFrom entrance.reader.origin := by
    refine Automaton.run_promises ?_ ?_ hrests hempty text
    · cases entrance with
      | expression => exact ⟨Form.plain_nil _, fun hfilled => by cases hfilled⟩
      | _ => exact BlockReader.orderly_start ..
    · cases entrance <;> rfl
  refine (htoken.promises.and horder).mono fun result hresult => ?_
  obtain ⟨⟨⟨kind, form, htoken⟩, _⟩, hfits⟩ := hresult
  obtain ⟨hregular, hsuits⟩ := hfits.token _ htoken
  have htop : ∃ form', Tree.ofForm kind form = .ofForm entrance.topKind form' ∧
      (entrance ≠ .expression → Form.slots form' = []) := by
    cases entrance with
    | expression =>
      obtain ⟨form', heq⟩ := hsuits
      exact ⟨form', heq, fun hne => absurd rfl hne⟩
    | _ =>
      obtain ⟨form', heq, hslots⟩ := hsuits
      exact ⟨form', heq, fun _ => hslots⟩
  obtain ⟨form', heq, hslots⟩ := htop
  rw [heq] at htoken hregular
  exact ⟨form', hfits.leading, htoken, hregular, hslots, hfits.trailing⟩

/-- The only item of a list is lawful with everything around it moved into it. -/
theorem reads_hoistItem {extent : Extent} (h : (Tree.node .statementsList form extent).Regular)
    (hslots : Form.slots form = []) :
    Entrance.statement.Reads (hoistItem (.node .statementsList form extent)) := by
  unfold hoistItem
  split
  · rename_i kind inner innerExtent before entry after hitems hspan
    have hform : form = before ++ (.item, .node kind inner innerExtent) :: after :=
      eq_of_items_eq_singleton hitems hspan
    have hnone : Form.items before = [] ∧ Form.items after = [] := by
      rw [Tree.form, hform, Form.items_append, Form.items_cons_item] at hitems
      simpa [List.append_eq_singleton_iff] using hitems
    have hempty : Form.slots before = [] ∧ Form.slots after = [] := by
      simpa [hform] using hslots
    cases h with
    | node _ own children =>
      have htidy : Form.Tidy {} form := ⟨own.fit, own.loose, children⟩
      rw [hform] at htidy
      obtain ⟨hbefore, hrest⟩ := Form.tidy_append.1 htidy
      obtain ⟨_, hitem, hafter⟩ := Form.tidy_cons.1 hrest
      rw [Allowance.next_default (by simp) (by simp)] at hafter
      cases hitem with
      | node _ own children =>
        exact reads_of_regular (own.surround children
          (hbefore.extras_of_items hempty.1 hnone.1) (hafter.extras_of_items hempty.2 hnone.2) _)
          own.inner
  · exact reads_of_regular h fun hfile => by cases hfile

/-- The root of what the outermost state delivers is lawful, and so is everything below it. -/
theorem Delivers.rootOf (h : entrance.Delivers form d) :
    Promises (entrance.rootOf d) entrance.Reads := by
  have hregular := h.regular
  cases hregular with
  | node _ own children =>
    unfold Entrance.rootOf
    rw [h.token]
    cases entrance with
    | file =>
      have hmembers : Promises (surround d.leading [] (.ofForm .classMembersList form))
          Tree.Regular :=
        promises_ok.2 (own.surround children h.leading
          (show Form.Tidy {} (Form.extras []) from Form.tidy_nil {}) .unplaced)
      refine hmembers.bind fun members hmembers => ?_
      refine (promises_true _).bind fun _ _ => promises_pure.2 ?_
      have htidy : Form.Tidy {} ((.slot .members, members) :: Form.extras d.trailing) :=
        Form.tidy_cons.2 ⟨.inl nofun, hmembers, h.trailing⟩
      have hsuits : Form.Suits .file ((.slot .members, members) :: Form.extras d.trailing) :=
        (Form.suits_extras .file d.trailing).cons rfl (by simp) members
      refine ⟨.node _ ⟨htidy.fit, trivial, hsuits⟩ fun entry hentry => ?_, ⟨_, rfl, rfl⟩,
        fun entry hentry => ?_, fun _ entry hentry => ?_⟩
      · exact (htidy.regular entry hentry).mono Form.IsRegular.toIsLawful
      · exact (htidy.regular entry hentry).mono Form.IsRegular.inner
      · exact h.trailing.loose entry hentry (Form.role_of_mem_extras hentry)
    | statements =>
      exact promises_ok.2 (reads_of_regular (own.surround children h.leading h.trailing _) rfl)
    | expression =>
      exact promises_ok.2 (reads_of_regular (own.surround children h.leading h.trailing _) rfl)
    | statement =>
      refine promises_ok.2 (reads_hoistItem (own.surround children h.leading h.trailing _) ?_)
      simpa using h.slots nofun

/-- Giving every token its place changes nothing about this. -/
theorem Reads.placed (h : entrance.Reads t) : entrance.Reads t.placed := by
  refine ⟨h.lawful.placeFrom (fun start hform => ⟨?_, hform.order.placeForm start,
    hform.suits.of_roles (Form.roles_placeForm start _)⟩) .start, ?_, ?_, ?_⟩
  · rw [Form.extrasFit_placeForm]
    exact hform.fit
  · obtain ⟨kind, hkind, hroots⟩ := h.roots
    exact ⟨kind, by simpa [Tree.placed, Tree.placedAt, Tree.nodeKind?] using hkind, hroots⟩
  · cases t with
    | leaf kind s extent =>
      intro entry hentry
      cases hentry
    | node kind form extent =>
      intro entry hentry
      obtain ⟨old, hold, -, place, hplace⟩ := Form.exists_of_mem_placeForm hentry
      rw [hplace]
      exact (h.inner old hold).placeFrom (fun _ hkind => hkind) place
  · intro hfile entry hentry
    cases t with
    | leaf kind s extent => cases hfile
    | node kind form extent =>
      have hlist := h.list (by simpa [Tree.placed, Tree.placedAt, Tree.nodeKind?] using hfile)
      cases form with
      | nil => cases hentry
      | cons first rest =>
        obtain ⟨old, hold, -, place, hplace⟩ := Form.exists_of_mem_placeForm hentry
        rw [hplace, Tree.isLines_placeFrom]
        exact hlist old hold

end Entrance

/-- Every parsed tree is one of lawful nodes. -/
theorem reads_of_parse {entrance : Entrance} {config : Config} {text : String} {t : Tree}
    (h : parse entrance config text = .ok t) : entrance.Reads t := by
  refine Promises.bind (entrance.run_delivers config text) (fun result hresult => ?_) t h
  obtain ⟨form, hform⟩ := hresult
  exact hform.rootOf.mapError.bind fun root hroot => promises_pure.2 hroot.placed

/-- Operators stand below each other in the order of their precedence, however malformed the text
is: every operand binds at least as tightly as its operator asks for, and nothing at the right end
of a first operand could have taken the operator behind it. -/
theorem bindsInOrder_of_parse {entrance : Entrance} {config : Config} {text : String} {t : Tree}
    (h : parse entrance config text = .ok t) : t.EveryNode Form.BindsInOrder :=
  (reads_of_parse h).lawful.mono Form.IsLawful.order

/-- A `not` binds more loosely than the `in` behind it, and so takes all of its node. -/
theorem bindsInOrder_of_parse_negation :
    ∃ t, parse .expression .unlimited "not a in b" = .ok t ∧
      (t.occupant? .expression).bind Tree.nodeKind? = some .singleOperator ∧
      t.EveryNode Form.BindsInOrder := by
  have hnegation : (parse .expression .unlimited "not a in b").toOption.any (fun t =>
      (t.occupant? .expression).bind Tree.nodeKind? == some .singleOperator) = true := by
    decide +kernel
  obtain ⟨t, ht, hkind⟩ := exists_of_any_toOption hnegation
  exact ⟨t, ht, eq_of_beq hkind, bindsInOrder_of_parse ht⟩

/-- Extras are trivia, separators and text without a place; the second word of a `not in` behind the
first one; and, behind an `else` without a place, operands. -/
theorem extrasFit_of_parse {entrance : Entrance} {config : Config} {text : String} {t : Tree}
    (h : parse entrance config text = .ok t) :
    t.EveryNode fun _ form => Form.extrasFit {} form :=
  (reads_of_parse h).lawful.mono Form.IsLawful.fit

/-- A cast takes what an `if` has begun as its first operand. So the `else` behind the cast has no
place, and the operand behind the `else` is left over as it is. -/
theorem exists_operand_among_extras :
    ∃ t, parse .expression .unlimited "a if b as c else d" = .ok t ∧
      ∃ entry ∈ t.form, entry.1 = .extra ∧ entry.2.leafKind? = some .identifier := by
  have hextra : (parse .expression .unlimited "a if b as c else d").toOption.any (fun t =>
      t.form.any fun entry => entry.1 == .extra && entry.2.leafKind? == some .identifier) =
        true := by
    decide +kernel
  obtain ⟨t, ht, hany⟩ := exists_of_any_toOption hextra
  obtain ⟨entry, hentry, hidentifier⟩ := List.any_eq_true.1 hany
  rw [Bool.and_eq_true, beq_iff_eq, beq_iff_eq] at hidentifier
  exact ⟨t, ht, entry, hentry, hidentifier⟩

/-- Behind an `else` without a place an operand may stand among extras. -/
theorem extrasFit_of_parse_interrupted_conditional :
    ∃ t, parse .expression .unlimited "a if b as c else d" = .ok t ∧
      t.EveryNode fun _ form => Form.extrasFit {} form := by
  obtain ⟨t, ht, _⟩ := exists_operand_among_extras
  exact ⟨t, ht, extrasFit_of_parse ht⟩

/-- It is not true of every text that extras are trivia, separators, text without a place or the
second word of a `not in`. -/
theorem extras_not_plain_of_interrupted_conditional :
    ∃ t, parse .expression .unlimited "a if b as c else d" = .ok t ∧
      ¬t.EveryNode fun _ form => ∀ entry ∈ form, entry.1 = .extra →
        entry.2.isPlainExtra ∨ entry.2.keyword? = some .inKw := by
  obtain ⟨t, ht, entry, hentry, hextra, hkind⟩ := exists_operand_among_extras
  refine ⟨t, ht, fun h => ?_⟩
  cases h with
  | leaf kind text extent => cases hentry
  | node extent own children =>
    have hplain := own entry hentry hextra
    simp [Tree.isPlainExtra, Tree.isTrivia, Tree.isInvalid, Tree.keyword?, hkind,
      LeafKind.isTrivia, LeafKind.keyword?] at hplain

/-! ### Reading a text again -/

namespace Entrance

variable {entrance : Entrance} {config : Config} {text : String} {t : Tree}

/-- The root tells from which entry point a text was read, but for a statement with a root that
texts read from other entry points have. -/
theorem ofTree_eq_iff (h : parse entrance config text = .ok t) :
    ofTree t = entrance ↔ ¬(entrance = .statement ∧
      (t.nodeKind? = some .statementsList ∨ t.nodeKind? = some .expressionStatement)) := by
  obtain ⟨kind, hkind, hroots⟩ := (reads_of_parse h).roots
  rw [ofTree, hkind]
  cases entrance with
  | file | statements | expression =>
    obtain rfl := hroots
    simp
  | statement =>
    have hfile : kind ≠ .file := hroots
    cases kind <;> simp_all

set_option maxRecDepth 10000 in
/-- A `pass` is a statement of its own kind. -/
theorem nodeKind?_parse_pass (config : Config) (hstack : config.maxReadingStack = none)
    (hfolding : config.maxTraceFrames = none) :
    (parse .statement config "pass").toOption.any (·.nodeKind? == some .passStatement) = true := by
  obtain ⟨size, spaces, buffer, stack, frames⟩ := config
  obtain rfl : stack = none := hstack
  obtain rfl : frames = none := hfolding
  cbv

/-- Without limits, reading any text from the entry point that the root of an old tree shows is
reading it from the entry point of the old tree, unless that was a statement whose root is a list or
an expression; and then it is not. -/
theorem parse_ofTree_iff (hstack : config.maxReadingStack = none)
    (hfolding : config.maxTraceFrames = none) (h : parse entrance config text = .ok t) :
    (∀ s, parse (ofTree t) config s = parse entrance config s) ↔ ¬(entrance = .statement ∧
      (t.nodeKind? = some .statementsList ∨ t.nodeKind? = some .expressionStatement)) := by
  constructor
  · rintro hsame ⟨rfl, hkind⟩
    obtain ⟨pass, hpass, hkind'⟩ :=
      exists_of_any_toOption (nodeKind?_parse_pass config hstack hfolding)
    obtain ⟨kind, hroot, hroots⟩ := (reads_of_parse ((hsame "pass").trans hpass)).roots
    obtain rfl : kind = .passStatement := by
      rw [hroot] at hkind'
      simpa using hkind'
    rcases hkind with hkind | hkind
    · rw [ofTree, hkind] at hroots
      cases hroots
    · rw [ofTree, hkind] at hroots
      cases hroots
  · intro hshown s
    rw [(ofTree_eq_iff h).2 hshown]

/-- Where a `pass` was read, all texts are read as statements. -/
theorem parse_ofTree_iff_pass :
    ∃ t, parse .statement .unlimited "pass" = .ok t ∧
      ∀ s, parse (ofTree t) .unlimited s = parse .statement .unlimited s := by
  obtain ⟨t, ht, hkind⟩ := exists_of_any_toOption (nodeKind?_parse_pass .unlimited rfl rfl)
  exact ⟨t, ht, (parse_ofTree_iff rfl rfl ht).2 (by simp [eq_of_beq hkind])⟩

/-- Where a name was read as a statement, a declaration is read as an expression. -/
theorem parse_ofTree_ne_of_name :
    ∃ t, parse .statement .unlimited "x" = .ok t ∧
      parse (ofTree t) .unlimited "var y" ≠ parse .statement .unlimited "var y" := by
  have hname : (parse .statement .unlimited "x").toOption.any
      (·.nodeKind? == some .expressionStatement) = true := by
    decide +kernel
  have hdeclaration : (parse .statement .unlimited "var y").toOption.any
      (·.nodeKind? == some .variableDeclaration) = true := by
    decide +kernel
  have hexpression : (parse .expression .unlimited "var y").toOption.any
      (·.nodeKind? == some .variableDeclaration) = false := by
    decide +kernel
  obtain ⟨t, ht, hkind⟩ := exists_of_any_toOption hname
  refine ⟨t, ht, fun hsame => ?_⟩
  rw [show ofTree t = .expression by rw [ofTree, eq_of_beq hkind]] at hsame
  rw [← hsame, hexpression] at hdeclaration
  cases hdeclaration

end Entrance

end ScriptTree
