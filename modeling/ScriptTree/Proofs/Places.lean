import ScriptTree.Proofs.Forms
import ScriptTree.Reparse.Splice
import ScriptTree.Source.Difference
import ScriptTree.Tree.Placement

/-!
# Places and how they move

A token knows its place when it stores the positions that counting from the start of the text
gives. When the text before a token grows, moving the token is as good as counting anew; a token
that ends before stays where it is.
-/

namespace ScriptTree

namespace Position

/-- Reading a text moves the offset by its bytes. -/
@[simp]
theorem offset_advance (p : Position) (s : String) :
    (p.advance s).offset = p.offset + s.utf8ByteSize := by
  have hchars (cs : List Char) (p : Position) :
      (p.advanceChars cs).offset = p.offset + byteLength cs := by
    induction cs generalizing p with
    | nil => rfl
    | cons c cs ih =>
      have hnext : (p.advanceChar c).offset = p.offset + c.utf8Size := by
        unfold advanceChar
        split <;> rfl
      rw [advanceChars, List.foldl_cons, ← advanceChars, ih, hnext, byteLength, Nat.add_assoc]
  rw [advance, hchars, byteLength_toList]

@[simp]
theorem advance_empty (p : Position) : p.advance "" = p := by
  simp [advance]

/-- A position at or after `old`, and where it moves when `old` becomes `new`. -/
structure Moves (old new p q : Position) : Prop where
  offset_le : old.offset ≤ p.offset
  line_le : old.line ≤ p.line
  column_le : p.line = old.line → old.column ≤ p.column
  offset_eq : q.offset = p.offset - old.offset + new.offset
  line_eq : q.line = p.line - old.line + new.line
  column_eq : q.column = if p.line = old.line then p.column - old.column + new.column else p.column

/-- Reading a character moves both positions alike. -/
theorem Moves.advanceChar {old new p q : Position} (h : Moves old new p q) (c : Char) :
    Moves old new (p.advanceChar c) (q.advanceChar c) := by
  obtain ⟨hoffset, hline, hcolumn, hqoffset, hqline, hqcolumn⟩ := h
  unfold Position.advanceChar
  split
  · have hnext : p.line + 1 ≠ old.line := by omega
    exact ⟨by dsimp only; omega, by dsimp only; omega, fun heq => absurd heq hnext,
      by dsimp only; omega, by dsimp only; omega, (if_neg hnext).symm⟩
  · refine ⟨by dsimp only; omega, hline, fun heq => Nat.le_succ_of_le (hcolumn heq),
      by dsimp only; omega, hqline, ?_⟩
    dsimp only
    rw [hqcolumn]
    split
    · rename_i heq
      have hle := hcolumn heq
      omega
    · rfl

/-- Moving a position after `old` is counting from `new`. -/
theorem shift_advance (old new : Position) (s : String) :
    (old.advance s).shift old new = new.advance s := by
  have hchars (cs : List Char) : Moves old new (old.advanceChars cs) (new.advanceChars cs) := by
    have hfrom (p q : Position) (h : Moves old new p q) :
        Moves old new (p.advanceChars cs) (q.advanceChars cs) := by
      induction cs generalizing p q with
      | nil => exact h
      | cons c cs ih => exact ih _ _ (h.advanceChar c)
    refine hfrom old new ⟨Nat.le_refl _, Nat.le_refl _, fun _ => Nat.le_refl _, ?_, ?_, ?_⟩
    · omega
    · omega
    · rw [if_pos rfl]
      omega
  by_cases heq : old = new
  · rw [shift, if_pos (.inl heq), heq]
  have h := hchars s.toList
  have hmoves : ¬ (old = new ∨ (old.advanceChars s.toList).offset < old.offset) :=
    not_or.2 ⟨heq, Nat.not_lt.2 h.offset_le⟩
  rw [advance, advance, shift, if_neg hmoves, ← h.offset_eq, ← h.line_eq, ← h.column_eq]

/-- A position before `old` stays. -/
theorem shift_of_lt {p old : Position} (new : Position) (h : p.offset < old.offset) :
    p.shift old new = p := by
  rw [shift, if_pos (.inr h)]

/-- A position from `old` on moves by as much as `old` does. -/
theorem offset_shift {p old : Position} (new : Position) (h : old.offset ≤ p.offset) :
    (p.shift old new).offset = p.offset - old.offset + new.offset := by
  rw [shift]
  split
  · rename_i hstays
    rcases hstays with rfl | hlt
    · omega
    · omega
  · rfl

/-- Nothing moves when `old` stays. -/
theorem shift_self (p old : Position) : p.shift old old = p := by
  rw [shift, if_pos (.inl rfl)]

end Position

/-- Whether one of both ends lies behind the offset at which it should be, which is not below a
bound. -/
def Extent.IsLate (e : Extent) (bound start stop : Nat) : Prop :=
  (bound ≤ start ∧ start < e.start.offset) ∨ (bound ≤ stop ∧ stop < e.stop.offset)

/-- A late end that moves with the text before it stays late. -/
theorem Extent.IsLate.shift {e : Extent} {old new : Position} {bound bound' d d' : Nat}
    (h : e.IsLate bound (old.offset + d) (old.offset + d'))
    (hbound : bound' + old.offset ≤ bound + new.offset) :
    (e.shift old new).IsLate bound' (new.offset + d) (new.offset + d') := by
  unfold IsLate Extent.shift at *
  rcases h with ⟨_, hlt⟩ | ⟨_, hlt⟩
  · refine .inl ⟨by omega, ?_⟩
    rw [Position.offset_shift new (by omega)]
    omega
  · refine .inr ⟨by omega, ?_⟩
    rw [Position.offset_shift new (by omega)]
    omega

/-- When only the end of a token is late, it stays late when the end moves. -/
theorem Extent.IsLate.shift_stop {e : Extent} {old new : Position}
    {bound bound' start stop stop' : Nat} (h : e.IsLate bound start stop) (hstart : start < bound)
    (hle : old.offset ≤ stop) (hstop : stop' + old.offset = stop + new.offset)
    (hbound : bound' + old.offset ≤ bound + new.offset) :
    (e.shift old new).IsLate bound' start stop' := by
  unfold IsLate Extent.shift at *
  rcases h with ⟨_, _⟩ | ⟨_, _⟩
  · omega
  · refine .inr ⟨by omega, ?_⟩
    rw [Position.offset_shift new (by omega)]
    omega

namespace Tree

/-- Every token of the tree stores the place that counting from `start` gives. -/
def PlacedFrom (start : Position) (t : Tree) : Prop :=
  (t.placeFrom start).1 = t

/-- Every token of the children stores the place that counting from `start` gives. -/
def FormPlacedFrom (start : Position) (form : List Entry) : Prop :=
  (placeForm start form).1 = form

variable {start old new : Position} {t : Tree} {form : List Entry}

@[simp]
theorem placedFrom_leaf {kind : LeafKind} {s : String} {extent : Extent} :
    (Tree.leaf kind s extent).PlacedFrom start ↔ extent = ⟨start, start.advance s⟩ := by
  simp [PlacedFrom, placeFrom, eq_comm]

@[simp]
theorem placedFrom_node {kind : NodeKind} {extent : Extent} :
    (Tree.node kind form extent).PlacedFrom start ↔
      FormPlacedFrom start form ∧ extent = ⟨start, start.advance (textOfForm form)⟩ := by
  simp [PlacedFrom, FormPlacedFrom, placeFrom, (text_placeForm start form).2, eq_comm]

@[simp]
theorem formPlacedFrom_nil : FormPlacedFrom start [] := by
  simp [FormPlacedFrom, placeForm]

@[simp]
theorem formPlacedFrom_cons {role : Role} {rest : List Entry} :
    FormPlacedFrom start ((role, t) :: rest) ↔
      t.PlacedFrom start ∧ FormPlacedFrom (start.advance t.text) rest := by
  simp [FormPlacedFrom, PlacedFrom, placeForm, (text_placeFrom start t).2]

@[simp]
theorem formPlacedFrom_append {xs ys : List Entry} :
    FormPlacedFrom start (xs ++ ys) ↔
      FormPlacedFrom start xs ∧ FormPlacedFrom (start.advance (textOfForm xs)) ys := by
  induction xs generalizing start with
  | nil => simp
  | cons entry rest ih =>
    obtain ⟨role, t⟩ := entry
    simp [ih, and_assoc]

/-- A tree that knows its place begins at its start and ends after its text. -/
theorem PlacedFrom.extent_eq (h : t.PlacedFrom start) :
    t.extent = ⟨start, start.advance t.text⟩ := by
  cases t with
  | leaf kind s extent => simpa [Tree.extent] using h
  | node kind form extent =>
    rw [placedFrom_node] at h
    simpa [Tree.extent] using h.2

mutual

/-- Counting gives every token its place. -/
theorem placedFrom_placeFrom (start : Position) (t : Tree) :
    (t.placeFrom start).1.PlacedFrom start := by
  match t with
  | .leaf kind s extent => simp [placeFrom]
  | .node kind form extent =>
    have h := formPlacedFrom_placeForm start form
    have htext := text_placeForm start form
    simp [placeFrom, h, htext.1, htext.2]

/-- Counting gives every child its place. -/
theorem formPlacedFrom_placeForm (start : Position) (form : List Entry) :
    FormPlacedFrom start (placeForm start form).1 := by
  match form with
  | [] => simp [placeForm]
  | (role, t) :: rest =>
    have h := placedFrom_placeFrom start t
    have htext := text_placeFrom start t
    have hrest := formPlacedFrom_placeForm (start.advance t.text) rest
    simp [placeForm, h, htext.1, htext.2, hrest]

end

@[simp]
theorem length_placeForm (start : Position) (form : List Entry) :
    (placeForm start form).1.length = form.length := by
  induction form generalizing start with
  | nil => simp [placeForm]
  | cons entry rest ih =>
    obtain ⟨role, t⟩ := entry
    simp [placeForm, ih]

/-! ### Moving trees -/

/-- Moving a tree moves its extent. -/
theorem extent_shift (old new : Position) (t : Tree) :
    (t.shift old new).extent = t.extent.shift old new := by
  cases t <;> simp [shift, Tree.extent]

/-- Children move one after another. -/
@[simp]
theorem shiftForm_append (old new : Position) (xs ys : List Entry) :
    shiftForm old new (xs ++ ys) = shiftForm old new xs ++ shiftForm old new ys := by
  induction xs with
  | nil => simp [shiftForm]
  | cons entry rest ih =>
    obtain ⟨role, t⟩ := entry
    simp [shiftForm, ih]

mutual

/-- A tree that ends where nothing moves stays. -/
theorem PlacedFrom.shift_eq {base : Position}
    (hstay : ∀ (p : Position) (s : String), p.advance s = base → p.shift old new = p)
    {start : Position} (t : Tree) (h : t.PlacedFrom start) (rest : String)
    (hbase : start.advance (t.text ++ rest) = base) : t.shift old new = t := by
  have hstop : (start.advance t.text).shift old new = start.advance t.text :=
    hstay _ rest (by rw [← Position.advance_append, hbase])
  have hstart := hstay _ _ hbase
  match t with
  | .leaf kind s extent =>
    rw [placedFrom_leaf] at h
    rw [text_leaf] at hstop
    simp [shift, Extent.shift, h, hstart, hstop]
  | .node kind form extent =>
    rw [placedFrom_node] at h
    rw [text_node] at hstop hbase
    have hform := FormPlacedFrom.shiftForm_eq hstay form h.1 rest hbase
    simp [shift, Extent.shift, h.2, hstart, hstop, hform]

/-- Children that end where nothing moves stay. -/
theorem FormPlacedFrom.shiftForm_eq {base : Position}
    (hstay : ∀ (p : Position) (s : String), p.advance s = base → p.shift old new = p)
    {start : Position} (form : List Entry) (h : FormPlacedFrom start form) (rest : String)
    (hbase : start.advance (textOfForm form ++ rest) = base) :
    shiftForm old new form = form := by
  match form with
  | [] => simp [shiftForm]
  | (role, t) :: more =>
    rw [formPlacedFrom_cons] at h
    rw [textOfForm_cons, String.append_assoc] at hbase
    have ht := PlacedFrom.shift_eq hstay t h.1 (textOfForm more ++ rest) hbase
    have hmore := FormPlacedFrom.shiftForm_eq hstay more h.2 rest
      (by rw [← Position.advance_append, hbase])
    simp [shiftForm, ht, hmore]

end

mutual

/-- A tree after a text that changed stands where counting anew puts it. -/
theorem PlacedFrom.shift {s : String} (new : Position) (t : Tree)
    (h : t.PlacedFrom (old.advance s)) :
    (t.shift old new).PlacedFrom (new.advance s) := by
  match t with
  | .leaf kind text extent =>
    rw [placedFrom_leaf] at h
    simp [Tree.shift, Extent.shift, h, ← Position.advance_append, Position.shift_advance]
  | .node kind form extent =>
    rw [placedFrom_node] at h
    have hform := FormPlacedFrom.shiftForm new form h.1
    simp [Tree.shift, Extent.shift, h.2, hform, textOfForm_shiftForm, ← Position.advance_append,
      Position.shift_advance]

/-- Children after a text that changed stand where counting anew puts them. -/
theorem FormPlacedFrom.shiftForm {s : String} (new : Position) (form : List Entry)
    (h : FormPlacedFrom (old.advance s) form) :
    FormPlacedFrom (new.advance s) (shiftForm old new form) := by
  match form with
  | [] => simp [Tree.shiftForm]
  | (role, t) :: rest =>
    rw [formPlacedFrom_cons, ← Position.advance_append] at h
    have ht := PlacedFrom.shift new t h.1
    have hrest := FormPlacedFrom.shiftForm new rest h.2
    simp [Tree.shiftForm, ht, text_shift, ← Position.advance_append, hrest]

end

/-! ### Tokens that moved too far -/

mutual

/-- Whether some token of a tree whose text begins at an offset begins or ends too late. -/
def IsLate (bound start : Nat) : Tree → Prop
  | .leaf _ s extent => extent.IsLate bound start (start + s.utf8ByteSize)
  | .node _ form extent =>
    extent.IsLate bound start (start + (textOfForm form).utf8ByteSize) ∨
      FormIsLate bound start form

/-- Whether some token of children whose text begins at an offset begins or ends too late. -/
def FormIsLate (bound start : Nat) : List Entry → Prop
  | [] => False
  | (_, t) :: rest => t.IsLate bound start ∨ FormIsLate bound (start + t.text.utf8ByteSize) rest

end

@[simp]
theorem formIsLate_nil {bound start : Nat} : ¬ FormIsLate bound start [] := by
  simp [FormIsLate]

@[simp]
theorem formIsLate_cons {bound start : Nat} {role : Role} {t : Tree} {rest : List Entry} :
    FormIsLate bound start ((role, t) :: rest) ↔
      t.IsLate bound start ∨ FormIsLate bound (start + t.text.utf8ByteSize) rest := by
  simp [FormIsLate]

@[simp]
theorem isLate_node {bound start : Nat} {kind : NodeKind} {form : List Entry} {extent : Extent} :
    (Tree.node kind form extent).IsLate bound start ↔
      extent.IsLate bound start (start + (textOfForm form).utf8ByteSize) ∨
        FormIsLate bound start form := by
  simp [IsLate]

@[simp]
theorem formIsLate_append {bound start : Nat} {xs ys : List Entry} :
    FormIsLate bound start (xs ++ ys) ↔
      FormIsLate bound start xs ∨
        FormIsLate bound (start + (textOfForm xs).utf8ByteSize) ys := by
  induction xs generalizing start with
  | nil => simp
  | cons entry rest ih =>
    obtain ⟨role, t⟩ := entry
    simp [ih, or_assoc, Nat.add_assoc]

mutual

/-- A tree that knows its place has no token that moved too far. -/
theorem PlacedFrom.not_isLate {start : Position} (t : Tree) (h : t.PlacedFrom start)
    (bound : Nat) : ¬ t.IsLate bound start.offset := by
  match t with
  | .leaf kind s extent =>
    rw [placedFrom_leaf] at h
    simp only [IsLate, Extent.IsLate, h, Position.offset_advance]
    omega
  | .node kind form extent =>
    rw [placedFrom_node] at h
    intro hlate
    rcases isLate_node.1 hlate with hextent | hform
    · simp only [Extent.IsLate, h.2, Position.offset_advance] at hextent
      omega
    · exact FormPlacedFrom.not_formIsLate form h.1 bound hform

/-- Children that know their places have no token that moved too far. -/
theorem FormPlacedFrom.not_formIsLate {start : Position} (form : List Entry)
    (h : FormPlacedFrom start form) (bound : Nat) : ¬ FormIsLate bound start.offset form := by
  match form with
  | [] => simp
  | (role, t) :: rest =>
    rw [formPlacedFrom_cons] at h
    have ht := PlacedFrom.not_isLate t h.1 bound
    have hrest := FormPlacedFrom.not_formIsLate rest h.2 bound
    rw [Position.offset_advance] at hrest
    simp [ht, hrest]

end

mutual

/-- A token that is late reaches the bound. -/
theorem IsLate.bound_le {bound start : Nat} (t : Tree) (h : t.IsLate bound start) :
    bound ≤ start + t.text.utf8ByteSize := by
  match t with
  | .leaf kind s extent =>
    simp only [IsLate, Extent.IsLate] at h
    rw [text_leaf]
    omega
  | .node kind form extent =>
    rw [isLate_node] at h
    rw [text_node]
    rcases h with hextent | hform
    · unfold Extent.IsLate at hextent
      omega
    · exact FormIsLate.bound_le form hform

/-- A token that is late reaches the bound. -/
theorem FormIsLate.bound_le {bound start : Nat} (form : List Entry)
    (h : FormIsLate bound start form) : bound ≤ start + (textOfForm form).utf8ByteSize := by
  match form with
  | [] => exact absurd h formIsLate_nil
  | (role, t) :: rest =>
    rw [textOfForm_cons, String.utf8ByteSize_append]
    rcases formIsLate_cons.1 h with ht | hrest
    · have hle := IsLate.bound_le t ht
      omega
    · have hle := FormIsLate.bound_le rest hrest
      omega

end

mutual

/-- A late token that moves with the text before it stays late. -/
theorem IsLate.shift {bound bound' d : Nat} (hbound : bound' + old.offset ≤ bound + new.offset)
    (t : Tree) (h : t.IsLate bound (old.offset + d)) :
    (t.shift old new).IsLate bound' (new.offset + d) := by
  match t with
  | .leaf kind s extent =>
    rw [IsLate, Nat.add_assoc] at h
    rw [Tree.shift, IsLate, Nat.add_assoc]
    exact h.shift hbound
  | .node kind form extent =>
    rw [isLate_node, Nat.add_assoc] at h
    rw [Tree.shift, isLate_node, textOfForm_shiftForm, Nat.add_assoc]
    rcases h with hextent | hform
    · exact .inl (hextent.shift hbound)
    · exact .inr (FormIsLate.shiftForm hbound form hform)

/-- A late token that moves with the text before it stays late. -/
theorem FormIsLate.shiftForm {bound bound' d : Nat}
    (hbound : bound' + old.offset ≤ bound + new.offset) (form : List Entry)
    (h : FormIsLate bound (old.offset + d) form) :
    FormIsLate bound' (new.offset + d) (shiftForm old new form) := by
  match form with
  | [] => exact absurd h formIsLate_nil
  | (role, t) :: rest =>
    rw [formIsLate_cons, Nat.add_assoc] at h
    rw [Tree.shiftForm, formIsLate_cons, text_shift, Nat.add_assoc]
    rcases h with ht | hrest
    · exact .inl (IsLate.shift hbound t ht)
    · exact .inr (FormIsLate.shiftForm hbound rest hrest)

end

/-- A tree that ends where something is put in, and moves behind it, has a token that is late. -/
theorem PlacedFrom.isLate_shift {start : Position} (h : t.PlacedFrom start)
    (hstop : start.advance t.text = old) (hlt : old.offset < new.offset) :
    (t.shift old new).IsLate old.offset start.offset := by
  have hoffset : start.offset + t.text.utf8ByteSize = old.offset := by
    rw [← Position.offset_advance, hstop]
  have hmoved : (old.shift old new).offset = new.offset := by
    rw [Position.offset_shift new (Nat.le_refl _), Nat.sub_self, Nat.zero_add]
  cases t with
  | leaf kind s extent =>
    rw [placedFrom_leaf] at h
    rw [text_leaf] at hstop hoffset
    simp only [Tree.shift, IsLate, Extent.IsLate, Extent.shift, h, hstop, hmoved]
    omega
  | node kind form extent =>
    rw [placedFrom_node] at h
    rw [text_node] at hstop hoffset
    rw [Tree.shift, isLate_node, textOfForm_shiftForm]
    simp only [Extent.IsLate, Extent.shift, h.2, hstop, hmoved]
    omega

end Tree

end ScriptTree
