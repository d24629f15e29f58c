import ScriptTree.Grammar.LeafReader
import Mathlib.Data.List.Basic

/-!
# Two spellings of a text

A text may be spelled in two ways between which reading makes no difference. Which texts of a leaf
are spellings of one another is left open here; words and operators have one spelling only. Lists
of tokens of two spellings are aligned: they correspond one to one, except that a line feed may
correspond to two tokens.
-/

namespace Option.Rel

variable {α β γ δ : Type} {R : α → β → Prop} {S : γ → δ → Prop} {a? : Option α} {b? : Option β}

theorem map {f : α → γ} {g : β → δ} (h : Option.Rel R a? b?)
    (hR : ∀ a b, R a b → S (f a) (g b)) : Option.Rel S (a?.map f) (b?.map g) := by
  cases h with
  | some h => exact .some (hR _ _ h)
  | none => exact .none

theorem bind {f : α → Option γ} {g : β → Option δ} (h : Option.Rel R a? b?)
    (hR : ∀ a b, R a b → Option.Rel S (f a) (g b)) : Option.Rel S (a?.bind f) (b?.bind g) := by
  cases h with
  | some h => exact hR _ _ h
  | none => exact .none

theorem mono {R' : α → β → Prop} (h : Option.Rel R a? b?) (hR : ∀ a b, R a b → R' a b) :
    Option.Rel R' a? b? := by
  cases h with
  | some h => exact .some (hR _ _ h)
  | none => exact .none

theorem isNone_eq (h : Option.Rel R a? b?) : b?.isNone = a?.isNone := by
  cases h <;> rfl

/-- Related options are either both absent or both present. -/
theorem none_or_some (h : Option.Rel R a? b?) :
    a? = Option.none ∧ b? = Option.none ∨
      ∃ a b, a? = Option.some a ∧ b? = Option.some b ∧ R a b := by
  cases h with
  | some h => exact .inr ⟨_, _, rfl, rfl, h⟩
  | none => exact .inl ⟨rfl, rfl⟩

end Option.Rel

namespace ScriptTree

/-- A text without white space of the kinds that may be spelled in two ways. -/
def Text.IsSolid (s : String) : Prop :=
  ∀ c ∈ s.toList, c ≠ '\n' ∧ c ≠ '\t' ∧ c ≠ ' '

instance (s : String) : Decidable (Text.IsSolid s) :=
  inferInstanceAs (Decidable (∀ c ∈ s.toList, c ≠ '\n' ∧ c ≠ '\t' ∧ c ≠ ' '))

/-- A way to spell texts differently. -/
class Spelling where
  /-- The second text may stand in a leaf where the first one stands. -/
  Respelled : String → String → Prop
  /-- Whether a line feed may come with a carriage return before it. -/
  BreaksTwice : Prop
  respelled_refl (s : String) : Respelled s s
  /-- A solid text has no other spelling. -/
  respelled_solid {s s' t : String} (h : Respelled s s') (ht : Text.IsSolid t) :
    s' = t ↔ s = t

namespace OperatorKind

/-- An operator is spelled without white space. -/
theorem isSolid_of_unary? {s : String} {op : OperatorKind} (h : unary? s = some op) :
    Text.IsSolid s := by
  unfold unary? at h
  split at h
  case h_6 => cases h
  all_goals decide

theorem isSolid_of_binary? {s : String} {op : OperatorKind} (h : binary? s = some op) :
    Text.IsSolid s := by
  unfold binary? at h
  split at h
  all_goals first | cases h; done | decide

variable [Spelling] {s s' : String}

/-- What holds of solid texts only holds of both spellings or of neither. -/
theorem eq_of_respelled {α : Type} {f : String → Option α} (hf : ∀ s a, f s = some a →
    Text.IsSolid s) (h : Spelling.Respelled s s') : f s' = f s := by
  cases hs : f s with
  | some a => rw [(Spelling.respelled_solid h (hf s a hs)).2 rfl, hs]
  | none =>
    cases hs' : f s' with
    | none => rfl
    | some a =>
      rw [(Spelling.respelled_solid h (hf s' a hs')).1 rfl] at hs
      rw [hs] at hs'
      cases hs'

/-- Both spellings of a text mean the same operator. -/
theorem unary?_respelled (h : Spelling.Respelled s s') : unary? s' = unary? s :=
  eq_of_respelled (fun _ _ => isSolid_of_unary?) h

theorem binary?_respelled (h : Spelling.Respelled s s') : binary? s' = binary? s :=
  eq_of_respelled (fun _ _ => isSolid_of_binary?) h

end OperatorKind

/-- Two lists that correspond one to one, except that an element of the first may correspond to
two elements of the second. -/
inductive Aligned {α β : Type} (R : α → β → Prop) (B : α → β → β → Prop) :
    List α → List β → Prop where
  | nil : Aligned R B [] []
  | cons {a : α} {b : β} {as : List α} {bs : List β} (h : R a b) (t : Aligned R B as bs) :
      Aligned R B (a :: as) (b :: bs)
  | twice {a : α} {b c : β} {as : List α} {bs : List β} (h : B a b c) (t : Aligned R B as bs) :
      Aligned R B (a :: as) (b :: c :: bs)

namespace Aligned

variable {α β γ δ : Type} {R : α → β → Prop} {B : α → β → β → Prop} {R' : γ → δ → Prop}
  {B' : γ → δ → δ → Prop} {as as' : List α} {bs bs' : List β}

theorem append (h : Aligned R B as bs) (h' : Aligned R B as' bs') :
    Aligned R B (as ++ as') (bs ++ bs') := by
  induction h with
  | nil => exact h'
  | cons h _ ih => exact .cons h ih
  | twice h _ ih => exact .twice h ih

theorem singleton {a : α} {b : β} (h : R a b) : Aligned R B [a] [b] :=
  .cons h .nil

theorem map {f : α → γ} {g : β → δ} (h : Aligned R B as bs) (hR : ∀ a b, R a b → R' (f a) (g b))
    (hB : ∀ a b c, B a b c → B' (f a) (g b) (g c)) : Aligned R' B' (as.map f) (bs.map g) := by
  induction h with
  | nil => exact .nil
  | cons h _ ih => exact .cons (hR _ _ h) ih
  | twice h _ ih => exact .twice (hB _ _ _ h) ih

theorem reverse (h : Aligned R B as bs) :
    Aligned R (fun a b c => B a c b) as.reverse bs.reverse := by
  induction h with
  | nil => exact .nil
  | cons h _ ih =>
    rw [List.reverse_cons, List.reverse_cons]
    exact ih.append (.cons h .nil)
  | twice h _ ih =>
    rw [List.reverse_cons, List.reverse_cons, List.reverse_cons, List.append_assoc]
    exact ih.append (.twice h .nil)

theorem isEmpty_eq (h : Aligned R B as bs) : bs.isEmpty = as.isEmpty := by
  cases h <;> rfl

/-- What one list has no fewer elements than. -/
theorem length_le (h : Aligned R B as bs) : as.length ≤ bs.length := by
  induction h with
  | nil => exact Nat.le_refl 0
  | cons _ _ ih => simpa using ih
  | twice _ _ ih =>
    simp only [List.length_cons]
    omega

/-- Options of the corresponding elements as lists. -/
theorem toList {a? : Option α} {b? : Option β} (h : Option.Rel R a? b?) :
    Aligned R B a?.toList b?.toList := by
  cases h with
  | some h => exact .cons h .nil
  | none => exact .nil

/-- Elements at the beginning that pass a test may be split off. -/
theorem span {p : α → Bool} {q : β → Bool} (h : Aligned R B as bs)
    (hR : ∀ a b, R a b → q b = p a)
    (hB : ∀ a b c, B a b c → q b = p a ∧ q c = p a) :
    Aligned R B (as.takeWhile p) (bs.takeWhile q) ∧
      Aligned R B (as.dropWhile p) (bs.dropWhile q) := by
  induction h with
  | nil => exact ⟨.nil, .nil⟩
  | cons h hrest ih =>
    simp only [List.takeWhile_cons, List.dropWhile_cons, hR _ _ h]
    split
    · exact ⟨.cons h ih.1, ih.2⟩
    · exact ⟨.nil, .cons h hrest⟩
  | twice h hrest ih =>
    simp only [List.takeWhile_cons, List.dropWhile_cons, (hB _ _ _ h).1, (hB _ _ _ h).2]
    split
    · exact ⟨.twice h ih.1, ih.2⟩
    · exact ⟨.nil, .twice h hrest⟩

/-- Elements that no test passes may be dropped. -/
theorem filter {p : α → Bool} {q : β → Bool} (h : Aligned R B as bs)
    (hR : ∀ a b, R a b → q b = p a)
    (hB : ∀ a b c, B a b c → q b = p a ∧ q c = p a) : Aligned R B (as.filter p) (bs.filter q) := by
  induction h with
  | nil => exact .nil
  | cons h _ ih =>
    simp only [List.filter_cons, hR _ _ h]
    split
    · exact .cons h ih
    · exact ih
  | twice h _ ih =>
    simp only [List.filter_cons, (hB _ _ _ h).1, (hB _ _ _ h).2]
    split
    · exact .twice h ih
    · exact ih

end Aligned

end ScriptTree
