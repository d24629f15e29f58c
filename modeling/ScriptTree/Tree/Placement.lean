import ScriptTree.Tree.Basic

/-!
Assigning places: every token begins where the text before it ends, and ends after its own text.
-/

namespace ScriptTree.Tree

mutual

/-- Place a tree at `start`; also returns where it ends. -/
def placeFrom (start : Position) : Tree → Tree × Position
  | .leaf kind text _ => (.leaf kind text ⟨start, start.advance text⟩, start.advance text)
  | .node kind form _ =>
    let (form, stop) := placeForm start form
    (.node kind form ⟨start, stop⟩, stop)

/-- Place children one after another. -/
def placeForm (start : Position) : List Entry → List Entry × Position
  | [] => ([], start)
  | (role, t) :: rest =>
    let (t, next) := t.placeFrom start
    let (rest, stop) := placeForm next rest
    ((role, t) :: rest, stop)

end

/-- The tree with every token placed, the text beginning at `start`. -/
def placedAt (start : Position) (t : Tree) : Tree :=
  (t.placeFrom start).1

/-- The tree with every token placed, the text beginning at the first position. -/
def placed (t : Tree) : Tree :=
  t.placedAt .start

mutual

/-- Placing a tree keeps its text and ends where the text ends. -/
theorem text_placeFrom (start : Position) (t : Tree) :
    (t.placeFrom start).1.text = t.text ∧ (t.placeFrom start).2 = start.advance t.text := by
  match t with
  | .leaf kind s extent => simp [placeFrom]
  | .node kind form extent =>
    have h := text_placeForm start form
    simp [placeFrom, h.1, h.2]

/-- Placing children keeps their text and ends where the text ends. -/
theorem text_placeForm (start : Position) (form : List Entry) :
    textOfForm (placeForm start form).1 = textOfForm form ∧
      (placeForm start form).2 = start.advance (textOfForm form) := by
  match form with
  | [] => simp [placeForm, Position.advance]
  | (role, t) :: rest =>
    have h := text_placeFrom start t
    have hrest := text_placeForm (start.advance t.text) rest
    simp [placeForm, h.1, h.2, hrest.1, hrest.2]

end

/-- Placing a tree keeps its text. -/
@[simp]
theorem text_placedAt (start : Position) (t : Tree) : (t.placedAt start).text = t.text :=
  (text_placeFrom start t).1

end ScriptTree.Tree
