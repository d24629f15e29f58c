import Mathlib
import ScriptTree.Parse.Entry
import ScriptTree.Proofs.Reading

/-!
# Parsing keeps every character

The tree of a text has exactly that text, from whichever entry point it was read and however
malformed it is. A text without a tree is one that nests beyond a limit.
-/

namespace ScriptTree

namespace BlockReader

variable (kind : BlockKind) (mode : BlockMode) (level : Option Nat) (phase : BlockPhase)

/-- A block of which nothing was read yet is at rest. -/
theorem rests_start : (start kind mode level phase).Rests where
  form := fun _ h => by cases h
  held := fun h => absurd rfl h
  tokens := fun _ h => by cases h
  indent := fun h => absurd rfl h
  done := rfl
  line := fun h => absurd rfl h

/-- A block of which nothing was read yet holds no text. -/
theorem text_start : (start kind mode level phase).text = "" := by
  simp [start, text]

end BlockReader

namespace Entrance

/-- Every entry point begins with a state at rest that may stand for a whole text. -/
theorem reader_rests (entrance : Entrance) :
    entrance.reader.Rests ∧ entrance.reader.layer.IsOutermost ∧ entrance.reader.text = "" := by
  cases entrance with
  | expression => exact ⟨⟨fun h => by cases h⟩, trivial, by simp [reader, RootReader.text]⟩
  | _ => exact ⟨BlockReader.rests_start .., trivial, BlockReader.text_start ..⟩

/-- A node takes any tokens around its children. -/
theorem surround_yields (leading trailing : List Tree) (kind : NodeKind) (form : List Entry) :
    Yields (surround leading trailing (.ofForm kind form)) fun t =>
      t.text = Tree.textOfTokens leading ++ Tree.textOfForm form ++ Tree.textOfTokens trailing := by
  refine yields_ok.2 ?_
  simp [String.append_assoc]

/-- A form with one item is that item with what stands before and after it. -/
theorem eq_of_items_eq_singleton {form : List Entry} {item : Tree}
    (h : Form.items form = [item]) {before after : List Entry} {entry : Entry}
    (hspan : form.span (fun entry => entry.1 != .item) = (before, entry :: after)) :
    form = before ++ (.item, item) :: after := by
  rw [List.span_eq_takeWhile_dropWhile, Prod.mk.injEq] at hspan
  obtain ⟨hbefore, hafter⟩ := hspan
  have hform : before ++ entry :: after = form := by
    rw [← hbefore, ← hafter, List.takeWhile_append_dropWhile]
  have hnone : Form.items before = [] := by
    rw [← hbefore, Form.items, List.map_eq_nil_iff, List.filter_eq_nil_iff]
    intro other hother
    have hother := List.all_takeWhile (l := form) (p := fun entry => entry.1 != .item)
      |> (List.all_eq_true.1 · other hother)
    simpa using hother
  have hrole : entry.1 = .item := by
    have hhead := List.head?_dropWhile_not (fun entry : Entry => entry.1 != .item) form
    rw [hafter] at hhead
    simpa using hhead
  obtain ⟨role, t⟩ := entry
  obtain rfl : role = .item := hrole
  rw [← hform, Form.items_append, hnone] at h
  simp only [Form.items, List.nil_append, List.filter_cons, beq_self_eq_true, if_true,
    List.map_cons, List.cons.injEq] at h
  rw [← hform, h.1]

/-- Moving everything around the only item into it changes nothing about the text. -/
@[simp]
theorem text_hoistItem (list : Tree) : (hoistItem list).text = list.text := by
  unfold hoistItem
  split
  · rename_i kind form extent before entry after hitems hspan
    have hform := eq_of_items_eq_singleton hitems hspan
    have hlist : list.text = Tree.textOfForm list.form := by
      cases list with
      | leaf kind s extent => cases hitems
      | node kind form extent => rw [Tree.text_node]; rfl
    rw [hlist, hform]
    simp [Tree.textOfTokens_children]
  · rfl

/-- The root takes everything that was delivered with the outermost node. -/
theorem rootOf_yields (entrance : Entrance) {d : Delivery}
    (h : ∃ kind form, d.token = some (.ofForm kind form)) :
    Yields (entrance.rootOf d) fun t =>
      t.text = Tree.textOfTokens (d.leading ++ d.token.toList ++ d.trailing) := by
  obtain ⟨kind, form, htoken⟩ := h
  have hsurround (leading trailing : List Tree) := surround_yields leading trailing kind form
  unfold rootOf
  rw [htoken]
  cases entrance with
  | file =>
    refine (hsurround d.leading []).bind fun members hmembers => ?_
    have hdeclared : Form.Declared .file ((.slot .members, members) :: Form.extras d.trailing) :=
      Form.declared_cons_slot.2 ⟨by decide, Form.declared_extras .file d.trailing⟩
    rw [Tree.assemble_of_declared hdeclared]
    refine yields_ok.2 ?_
    simp [hmembers, String.append_assoc]
  | statements =>
    exact (hsurround d.leading d.trailing).mono fun t ht => by simp [ht, String.append_assoc]
  | expression =>
    exact (hsurround d.leading d.trailing).mono fun t ht => by simp [ht, String.append_assoc]
  | statement =>
    exact (hsurround d.leading d.trailing).map fun t ht => by simp [ht, String.append_assoc]

end Entrance

/-- Parsing gives a tree of the text, unless nesting goes beyond a limit. -/
theorem parse_meets {config : Config} {limited : Prop}
    (hstack : config.maxReadingStack.isSome → limited)
    (hfolding : config.maxTraceFrames.isSome → limited) (entrance : Entrance) (text : String) :
    Meets limited (parse entrance config text) fun t => t.text = text := by
  obtain ⟨hrests, houter, hempty⟩ := entrance.reader_rests
  refine (Automaton.run_meets hstack hfolding hrests houter hempty text).bind
    fun result hresult => ?_
  obtain ⟨htoken, htext⟩ := hresult
  refine (entrance.rootOf_yields htoken).meets.bind fun t ht => ?_
  exact meets_pure.2 (by rw [Tree.placed, Tree.text_placedAt, ht, htext])

/-- The tree of a text spells the text: no character is lost, doubled or moved. -/
theorem text_of_parse {entrance : Entrance} {config : Config} {text : String} {t : Tree}
    (h : parse entrance config text = .ok t) : t.text = text := by
  have hmeets : Meets True (parse entrance config text) fun t => t.text = text :=
    parse_meets (fun _ => trivial) (fun _ => trivial) entrance text
  rw [h] at hmeets
  exact hmeets

/-- An operator without an operand stands in the tree, as text without a place. -/
theorem text_of_parse_dangling_operator :
    ∃ t, parse .expression {} "a+" = .ok t ∧ t.text = "a+" := by
  have hread : (parse .expression {} "a+").toOption.any (fun _ => true) = true := by
    decide +kernel
  obtain ⟨t, h, _⟩ := exists_of_any_toOption hread
  exact ⟨t, h, text_of_parse h⟩

/-- Malformed text has a tree like any other: parsing fails only where nesting goes beyond a
limit, and never without limits. -/
theorem parse_total (entrance : Entrance) (config : Config) (text : String) :
    ((∃ t, parse entrance config text = .ok t) ∨
      ∃ e, parse entrance config text = .error (.depth e)) ∧
    (config.maxReadingStack = none → config.maxTraceFrames = none →
      ∃ t, parse entrance config text = .ok t) := by
  have hmeets {limited : Prop} (hstack : config.maxReadingStack.isSome → limited)
      (hfolding : config.maxTraceFrames.isSome → limited) :=
    parse_meets hstack hfolding entrance text
  constructor
  · have houtcome : Meets True (parse entrance config text) fun t => t.text = text :=
      hmeets (fun _ => trivial) (fun _ => trivial)
    cases hparse : parse entrance config text with
    | ok t => exact .inl ⟨t, rfl⟩
    | error e =>
      rw [hparse] at houtcome
      cases e with
      | depth e => exact .inr ⟨e, rfl⟩
      | tree e => exact False.elim houtcome
  · intro hstack hfolding
    have houtcome : Meets False (parse entrance config text) fun t => t.text = text :=
      hmeets (by simp [hstack]) (by simp [hfolding])
    obtain ⟨t, ht, _⟩ := houtcome.yields
    exact ⟨t, ht⟩

/-- Brackets that nothing opened have a tree where depth has no limits. -/
theorem parse_total_stray_brackets :
    ∃ t, parse .file .unlimited ")]" = .ok t :=
  (parse_total .file .unlimited ")]").2 rfl rfl

end ScriptTree
