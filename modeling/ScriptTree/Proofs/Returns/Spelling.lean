import ScriptTree.Proofs.Spellings.Basic

/-!
# Line breaks with carriage returns

A line break may be spelled with a carriage return before the line feed.
-/

namespace ScriptTree

namespace Text

/-- A character with a carriage return before it if it is a line feed. -/
def spellReturn (c : Char) : List Char :=
  if c = '\n' then ['\r', '\n'] else [c]

/-- The text with a carriage return before each line feed. -/
def withReturns (s : String) : String :=
  String.ofList (s.toList.flatMap spellReturn)

/-- The text without its carriage returns. -/
def withoutReturns (s : String) : String :=
  String.ofList (s.toList.filter (· != '\r'))

@[simp]
theorem toList_withReturns (s : String) :
    (withReturns s).toList = s.toList.flatMap spellReturn := by
  simp [withReturns]

@[simp]
theorem toList_withoutReturns (s : String) :
    (withoutReturns s).toList = s.toList.filter (· != '\r') := by
  simp [withoutReturns]

@[simp]
theorem withReturns_empty : withReturns "" = "" := by
  simp [withReturns]

@[simp]
theorem withReturns_append (s t : String) :
    withReturns (s ++ t) = withReturns s ++ withReturns t := by
  simp [withReturns]

/-- Any other character than a line feed is kept. -/
theorem withReturns_push {c : Char} (hc : c ≠ '\n') (s : String) :
    withReturns (s.push c) = (withReturns s).push c := by
  apply String.toList_injective
  simp [spellReturn, hc]

/-- A line feed comes with a carriage return. -/
theorem withReturns_push_newLine (s : String) :
    withReturns (s.push '\n') = ((withReturns s).push '\r').push '\n' := by
  apply String.toList_injective
  simp [spellReturn]

/-- A text without line feeds is kept. -/
theorem withReturns_eq_self {s : String} (h : '\n' ∉ s.toList) : withReturns s = s := by
  have hspell : ∀ c ∈ s.toList, spellReturn c = [c] := fun c hc =>
    if_neg (ne_of_mem_of_not_mem hc h)
  rw [withReturns, List.flatMap_congr hspell]
  simp

/-- A line feed is still there when its carriage return is. -/
theorem newLine_mem_withReturns {s : String} (h : '\n' ∈ s.toList) :
    '\n' ∈ (withReturns s).toList := by
  rw [toList_withReturns, List.mem_flatMap]
  exact ⟨'\n', h, by simp [spellReturn]⟩

/-- Removing carriage returns removes the ones that were put before line feeds. -/
@[simp]
theorem withoutReturns_withReturns (s : String) :
    withoutReturns (withReturns s) = withoutReturns s := by
  apply String.toList_injective
  rw [toList_withoutReturns, toList_withoutReturns, toList_withReturns, List.filter_flatMap]
  have hspell (c : Char) : (spellReturn c).filter (· != '\r') = [c].filter (· != '\r') := by
    unfold spellReturn
    split
    · rename_i hc
      subst hc
      rfl
    · rfl
  induction s.toList with
  | nil => rfl
  | cons c rest ih =>
    rw [List.flatMap_cons, ih, hspell, ← List.filter_append, List.singleton_append]

/-- A text without carriage returns is kept. -/
theorem withoutReturns_eq_self {s : String} (h : '\r' ∉ s.toList) : withoutReturns s = s := by
  apply String.toList_injective
  rw [toList_withoutReturns, List.filter_eq_self]
  intro c hc
  simpa using ne_of_mem_of_not_mem hc h

/-- The same text, or the text with carriage returns. -/
def Respelled (s s' : String) : Prop :=
  s' = s ∨ s' = withReturns s

theorem Respelled.refl (s : String) : Respelled s s := .inl rfl

/-- Without carriage returns nothing tells the two spellings apart. -/
theorem Respelled.withoutReturns_eq {s s' : String} (h : Respelled s s') :
    withoutReturns s' = withoutReturns s := by
  rcases h with rfl | rfl
  · rfl
  · exact withoutReturns_withReturns s

/-- Where a text has no line feed there is one spelling only. -/
theorem Respelled.eq_or {s s' : String} (h : Respelled s s') :
    s' = s ∨ '\n' ∈ s.toList ∧ '\n' ∈ s'.toList := by
  rcases h with rfl | rfl
  · exact .inl rfl
  · by_cases hs : '\n' ∈ s.toList
    · exact .inr ⟨hs, newLine_mem_withReturns hs⟩
    · exact .inl (withReturns_eq_self hs)

/-- Either spelling is a text without line feeds when the other one is. -/
theorem Respelled.eq_iff {s s' t : String} (h : Respelled s s') (ht : '\n' ∉ t.toList) :
    s' = t ↔ s = t := by
  rcases h.eq_or with rfl | ⟨hs, hs'⟩
  · rfl
  · constructor <;> rintro rfl
    · exact absurd hs' ht
    · exact absurd hs ht

end Text

namespace Spelling

/-- The spelling of line breaks with carriage returns. -/
@[reducible]
def returns : Spelling where
  Respelled := Text.Respelled
  BreaksTwice := True
  respelled_refl := Text.Respelled.refl
  respelled_solid h ht := h.eq_iff fun hmem => (ht '\n' hmem).1 rfl

end Spelling

end ScriptTree
