import ScriptTree.Proofs.Parsing
import ScriptTree.Proofs.Returns.Runs
import ScriptTree.Proofs.Spellings.Parsing

/-!
# Carriage returns do not matter

The tree of a text and the tree of the same text with a carriage return before each line feed are
the same, once the carriage returns are left out of the second one. This holds of every text but
those in which a line feed comes right after a backslash in a string of one line.
-/

namespace ScriptTree

attribute [local instance] ReaderSpelling.returns

namespace Tree

/-- Whether the token is a carriage return of its own. -/
def isReturn : Tree → Bool
  | .leaf .carriageReturn text _ => text == "\r"
  | _ => false

mutual

/-- The tree without its carriage returns. -/
def withoutReturns : Tree → Tree
  | .leaf kind text extent => .leaf kind (Text.withoutReturns text) extent
  | .node kind form extent => .node kind (formWithoutReturns form) extent

/-- Children without their carriage returns. -/
def formWithoutReturns : List Entry → List Entry
  | [] => []
  | (role, t) :: rest =>
    if t.isReturn then formWithoutReturns rest
    else (role, t.withoutReturns) :: formWithoutReturns rest

end

/-- Whether a token is a carriage return does not depend on its place. -/
theorem isReturn_placeFrom (start : Position) (t : Tree) :
    (t.placeFrom start).1.isReturn = t.isReturn := by
  cases t with
  | leaf kind text extent => cases kind <;> rfl
  | node kind form extent => rfl

mutual

/-- A tree may be placed before its carriage returns are left out. -/
theorem placeFrom_withoutReturns_placeFrom (start start' : Position) (t : Tree) :
    (t.placeFrom start).1.withoutReturns.placeFrom start' = t.withoutReturns.placeFrom start' := by
  match t with
  | .leaf kind text extent => simp [placeFrom, withoutReturns]
  | .node kind form extent =>
    have hform := placeForm_withoutReturns_placeForm start start' form
    simp [placeFrom, withoutReturns, hform]

/-- Children may be placed before their carriage returns are left out. -/
theorem placeForm_withoutReturns_placeForm (start start' : Position) (form : List Entry) :
    placeForm start' (formWithoutReturns (placeForm start form).1) =
      placeForm start' (formWithoutReturns form) := by
  match form with
  | [] => rfl
  | (role, t) :: rest =>
    have ht := placeFrom_withoutReturns_placeFrom start start' t
    simp only [placeForm, formWithoutReturns, isReturn_placeFrom]
    split
    · exact placeForm_withoutReturns_placeForm _ _ rest
    · simp only [placeForm, ht, placeForm_withoutReturns_placeForm]

end

mutual

/-- A tree without carriage returns stays as it is. -/
theorem withoutReturns_eq_self {t : Tree} (h : '\r' ∉ t.text.toList) : t.withoutReturns = t := by
  match t with
  | .leaf kind text extent =>
    rw [text_leaf] at h
    rw [withoutReturns, Text.withoutReturns_eq_self h]
  | .node kind form extent =>
    rw [text_node] at h
    rw [withoutReturns, formWithoutReturns_eq_self h]

/-- Children without carriage returns stay as they are. -/
theorem formWithoutReturns_eq_self {form : List Entry} (h : '\r' ∉ (textOfForm form).toList) :
    formWithoutReturns form = form := by
  match form with
  | [] => rfl
  | (role, t) :: rest =>
    rw [textOfForm_cons, String.toList_append, List.mem_append, not_or] at h
    have hreturn : t.isReturn = false := by
      cases ht : t.isReturn with
      | false => rfl
      | true =>
        unfold isReturn at ht
        split at ht
        · obtain rfl := eq_of_beq ht
          exact absurd (by simp) h.1
        · cases ht
    rw [formWithoutReturns, hreturn, withoutReturns_eq_self h.1, formWithoutReturns_eq_self h.2]
    rfl

end

/-- Both twins are carriage returns, or neither is. -/
theorem Twin.isReturn_eq {t t' : Tree} (h : t.Twin t') : t'.isReturn = t.isReturn := by
  cases h with
  | node kind extent extent' h => rfl
  | @leaf kind s s' extent extent' h =>
    have hreturn : (s' == "\r") = (s == "\r") := by
      rw [Bool.eq_iff_iff, beq_iff_eq, beq_iff_eq]
      exact h.eq_iff (by decide)
    cases kind <;> first | rfl | exact hreturn

mutual

/-- Without carriage returns nothing but places tells twins apart. -/
theorem Twin.placeFrom_withoutReturns {t t' : Tree} (h : t.Twin t') (start : Position) :
    t'.withoutReturns.placeFrom start = t.withoutReturns.placeFrom start := by
  match h with
  | .leaf kind extent extent' h =>
    rw [withoutReturns, withoutReturns, h.withoutReturns_eq, placeFrom, placeFrom]
  | .node kind extent extent' h =>
    simp only [withoutReturns, placeFrom, h.placeForm_withoutReturns start]

/-- Without carriage returns nothing but places tells children of twins apart. -/
theorem FormTwin.placeForm_withoutReturns {form form' : List Entry} (h : FormTwin form form')
    (start : Position) :
    placeForm start (formWithoutReturns form') = placeForm start (formWithoutReturns form) := by
  match h with
  | .nil => rfl
  | .cons (x := (_, _)) (y := (_, _)) hrole ht hrest =>
    obtain rfl := hrole
    simp only [formWithoutReturns, ht.isReturn_eq]
    split
    · exact hrest.placeForm_withoutReturns start
    · simp only [placeForm, ht.placeFrom_withoutReturns start,
        hrest.placeForm_withoutReturns]
  | .twice hbreak hrest =>
    obtain ⟨_, rfl, rfl, rfl⟩ := hbreak
    simp [formWithoutReturns, isReturn, ofText, placeForm, hrest.placeForm_withoutReturns]

end

end Tree

namespace Entrance

/-- Whether a line feed of the text comes right after a backslash in a string of one line, which
takes it as it is. -/
def escapesBreak (entrance : Entrance) (config : Config) (text : String) : Bool :=
  match Automaton.start config entrance.reader with
  | .ok a => a.escapesBreak config text.toList
  | .error _ => false

end Entrance

/-- Carriage returns before the line feeds of a text do not matter: without them, the tree is that
of the text. -/
theorem parse_withReturns {entrance : Entrance} {config : Config} {text : String}
    (hreturn : '\r' ∉ text.toList) (hescape : entrance.escapesBreak config text = false) :
    (parse entrance config (Text.withReturns text)).map (fun t => t.withoutReturns.placed) =
      parse entrance config text := by
  obtain ⟨hrests, _, hempty⟩ := entrance.reader_rests
  have hstart (a : Automaton) (ha : Automaton.start config entrance.reader = .ok a) :
      a.escapesBreak config text.toList = false := by
    rwa [Entrance.escapesBreak, ha] at hescape
  have hrun := Automaton.run_twin entrance.reader_twin hrests hempty hreturn hstart
  -- The trees are placed last, so that their places differ.
  have hparse : Agree (fun t t' => ∃ s s' : Tree, s.Twin s' ∧ t = s.placed ∧ t' = s'.placed)
      (parse entrance config text) (parse entrance config (Text.withReturns text)) := by
    refine hrun.bind fun x y hxy => ?_
    exact (entrance.rootOf_twin hxy).mapError.bind fun s s' hs => ⟨s, s', hs, rfl, rfl⟩
  have hsame : Agree (fun t t' : Tree => t'.withoutReturns.placed = id t)
      (parse entrance config text) (parse entrance config (Text.withReturns text)) := by
    refine (hparse.and fun _ => text_of_parse).mono fun t t' hboth => ?_
    obtain ⟨⟨s, s', hs, rfl, rfl⟩, htext⟩ := hboth
    rw [Tree.placed, Tree.text_placedAt] at htext
    have hkept : s.withoutReturns = s := Tree.withoutReturns_eq_self (htext ▸ hreturn)
    calc (s'.placed.withoutReturns.placeFrom .start).1
        = (s'.withoutReturns.placeFrom .start).1 :=
          congrArg Prod.fst (Tree.placeFrom_withoutReturns_placeFrom _ _ s')
      _ = (s.withoutReturns.placeFrom .start).1 :=
          congrArg Prod.fst (hs.placeFrom_withoutReturns _)
      _ = s.placed := by rw [hkept]; rfl
  rw [hsame.map_eq]
  cases parse entrance config text <;> rfl

/-- A backslash joins lines, and a string in triple quotes goes on over the end of its line. -/
theorem parse_withReturns_joined_lines :
    '\r' ∉ "a \\\n+\"\"\"\\\n\"\"\"".toList ∧
    Entrance.expression.escapesBreak .unlimited "a \\\n+\"\"\"\\\n\"\"\"" = false ∧
    (parse .expression .unlimited (Text.withReturns "a \\\n+\"\"\"\\\n\"\"\"")).map
      (fun t => t.withoutReturns.placed) =
        parse .expression .unlimited "a \\\n+\"\"\"\\\n\"\"\"" := by
  have hreturn : '\r' ∉ "a \\\n+\"\"\"\\\n\"\"\"".toList := by decide
  have hescape :
      Entrance.expression.escapesBreak .unlimited "a \\\n+\"\"\"\\\n\"\"\"" = false := by
    decide +kernel
  exact ⟨hreturn, hescape, parse_withReturns hreturn hescape⟩

/-- In a string of one line a backslash takes a line feed but not a carriage return with it: the
string goes on over the one line break and ends at the other. -/
theorem parse_withReturns_ne_of_escaped_break :
    '\r' ∉ "\"a\\\nb\"".toList ∧
    (parse .expression .unlimited (Text.withReturns "\"a\\\nb\"")).map
      (fun t => t.withoutReturns.placed) ≠ parse .expression .unlimited "\"a\\\nb\"" := by
  have hleaves : ((parse .expression .unlimited (Text.withReturns "\"a\\\nb\"")).map
      fun t => t.withoutReturns.placed).toOption.any (fun t => t.leaves.length == 4) &&
      (parse .expression .unlimited "\"a\\\nb\"").toOption.any fun t => t.leaves.length == 1 := by
    decide +kernel
  rw [Bool.and_eq_true] at hleaves
  refine ⟨by decide, fun heq => ?_⟩
  rw [heq] at hleaves
  obtain ⟨t, ht, hfour⟩ := exists_of_any_toOption hleaves.1
  obtain ⟨t', ht', hone⟩ := exists_of_any_toOption hleaves.2
  obtain rfl : t = t' := by
    rw [ht] at ht'
    exact Except.ok.inj ht'
  rw [beq_iff_eq] at hfour hone
  omega

end ScriptTree
