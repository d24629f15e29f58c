import ScriptTree.Literal.Indentation
import ScriptTree.Proofs.Spellings.Basic

/-!
# Tabs and groups of blanks

A tab may be spelled as a group of blanks. Where blanks count as indentation and a group is as
wide as a unit, both spellings measure the same.
-/

namespace ScriptTree

namespace Text

/-- Some of the tabs, wherever they stand, are spelled as groups of `n` blanks. -/
inductive Retabs (n : Nat) : List Char → List Char → Prop where
  | nil : Retabs n [] []
  | same (c : Char) {cs cs' : List Char} (h : Retabs n cs cs') : Retabs n (c :: cs) (c :: cs')
  | tab {cs cs' : List Char} (h : Retabs n cs cs') :
      Retabs n ('\t' :: cs) (List.replicate n ' ' ++ cs')

/-- The same text, with some of its tabs spelled as groups of `n` blanks. -/
def Retabbed (n : Nat) (s s' : String) : Prop :=
  Retabs n s.toList s'.toList

namespace Retabs

variable {n : Nat} {cs cs' ds ds' : List Char}

theorem refl (cs : List Char) : Retabs n cs cs := by
  induction cs with
  | nil => exact .nil
  | cons c cs ih => exact .same c ih

theorem append (h : Retabs n cs cs') (h' : Retabs n ds ds') :
    Retabs n (cs ++ ds) (cs' ++ ds') := by
  induction h with
  | nil => exact h'
  | same c _ ih => exact .same c ih
  | tab _ ih =>
    rw [List.cons_append, List.append_assoc]
    exact .tab ih

/-- A group of blanks is no shorter than a tab. -/
theorem length_le (h : Retabs n cs cs') (hn : 0 < n) : cs.length ≤ cs'.length := by
  induction h with
  | nil => exact Nat.le_refl 0
  | same c _ ih => simpa using ih
  | tab _ ih =>
    simp only [List.length_cons, List.length_append, List.length_replicate]
    omega

/-- Without tabs there is nothing to spell. -/
theorem eq_of_not_mem (h : Retabs n cs cs') (htab : '\t' ∉ cs) : cs' = cs := by
  induction h with
  | nil => rfl
  | same c _ ih => rw [ih fun hmem => htab (List.mem_cons_of_mem c hmem)]
  | tab _ _ => exact absurd List.mem_cons_self htab

/-- Without blanks no tab was spelled with any. -/
theorem eq_of_not_mem' (h : Retabs n cs cs') (hn : 0 < n) (hblank : ' ' ∉ cs') : cs' = cs := by
  induction h with
  | nil => rfl
  | same c _ ih => rw [ih fun hmem => hblank (List.mem_cons_of_mem c hmem)]
  | tab _ _ =>
    exact absurd (List.mem_append_left _ (List.mem_replicate.2 ⟨Nat.pos_iff_ne_zero.1 hn, rfl⟩))
      hblank

/-- Each tab that is spelled as a group takes the place of that many blanks. -/
theorem exists_count (h : Retabs n cs cs') :
    ∃ k, cs.count '\t' = cs'.count '\t' + k ∧
      cs'.length - cs'.count '\t' = cs.length - cs.count '\t' + k * n := by
  induction h with
  | nil => exact ⟨0, rfl, by simp⟩
  | @same c cs cs' _ ih =>
    obtain ⟨k, hcount, hlength⟩ := ih
    have hle : cs.count '\t' ≤ cs.length := List.count_le_length
    have hle' : cs'.count '\t' ≤ cs'.length := List.count_le_length
    refine ⟨k, ?_, ?_⟩
    · simp only [List.count_cons]
      omega
    · simp only [List.count_cons, List.length_cons]
      split <;> omega
  | @tab cs cs' _ ih =>
    obtain ⟨k, hcount, hlength⟩ := ih
    have hle : cs.count '\t' ≤ cs.length := List.count_le_length
    have hle' : cs'.count '\t' ≤ cs'.length := List.count_le_length
    have hnone : (List.replicate n ' ').count '\t' = 0 := by
      rw [List.count_eq_zero, List.mem_replicate]
      exact fun hmem => absurd hmem.2 (by decide)
    refine ⟨k + 1, ?_, ?_⟩
    · simp only [List.count_cons, List.count_append, hnone, beq_self_eq_true, if_true]
      omega
    · simp only [List.count_cons, List.count_append, List.length_cons, List.length_append,
        List.length_replicate, hnone, beq_self_eq_true, if_true, Nat.add_mul, Nat.one_mul]
      omega

/-- Both spellings measure the same where a group of blanks is a unit. -/
theorem ofChars_eq (h : Retabs n cs cs') (hn : 0 < n) :
    IndentLevel.ofChars n true cs' = IndentLevel.ofChars n true cs := by
  obtain ⟨k, hcount, hlength⟩ := h.exists_count
  have hunit : (n != 0) = true := by simpa using Nat.pos_iff_ne_zero.1 hn
  simp only [IndentLevel.ofChars, hunit, Bool.and_self, if_true, hlength]
  generalize cs.length - cs.count '\t' = blanks
  have hgroups : (blanks + k * n + n - 1) / n = k + (blanks + n - 1) / n := by
    rw [show blanks + k * n + n - 1 = blanks + n - 1 + k * n by omega,
      Nat.add_mul_div_right _ _ hn]
    omega
  rw [hgroups, hcount, Nat.add_mul_mod_self_right, Nat.add_assoc]

end Retabs

namespace Retabbed

variable {n : Nat} {s s' t t' : String}

theorem refl (s : String) : Retabbed n s s :=
  Retabs.refl s.toList

theorem append (h : Retabbed n s s') (h' : Retabbed n t t') : Retabbed n (s ++ t) (s' ++ t') := by
  rw [Retabbed, String.toList_append, String.toList_append]
  exact Retabs.append h h'

theorem push (h : Retabbed n s s') (c : Char) : Retabbed n (s.push c) (s'.push c) := by
  rw [String.push_eq_append, String.push_eq_append]
  exact h.append (refl _)

/-- A tab here and a group of blanks there. -/
theorem push_tab (h : Retabbed n s s') :
    Retabbed n (s.push '\t') (s' ++ String.ofList (List.replicate n ' ')) := by
  have htab : Retabbed n (String.singleton '\t') (String.ofList (List.replicate n ' ')) := by
    rw [Retabbed, String.toList_ofList, ← List.append_nil (List.replicate n ' ')]
    exact .tab .nil
  rw [String.push_eq_append]
  exact h.append htab

theorem length_le (h : Retabbed n s s') (hn : 0 < n) : s.length ≤ s'.length := by
  rw [← String.length_toList, ← String.length_toList]
  exact Retabs.length_le h hn

/-- A text without tabs and blanks has one spelling. -/
theorem eq_iff (h : Retabbed n s s') (hn : 0 < n) (ht : Text.IsSolid t) : s' = t ↔ s = t := by
  constructor <;> rintro rfl
  · exact (String.toList_injective (Retabs.eq_of_not_mem' h hn fun hmem => (ht _ hmem).2.2 rfl)).symm
  · exact String.toList_injective (Retabs.eq_of_not_mem h fun hmem => (ht _ hmem).2.1 rfl)

end Retabbed

end Text

/-- How many blanks a tab may be spelled with. -/
class TabWidth where
  blanks : Nat
  pos : 0 < blanks

namespace Spelling

/-- The spelling of tabs as groups of blanks. -/
@[reducible]
def tabs [TabWidth] : Spelling where
  Respelled := Text.Retabbed TabWidth.blanks
  BreaksTwice := False
  respelled_refl := Text.Retabbed.refl
  respelled_solid h ht := h.eq_iff TabWidth.pos ht

end Spelling

end ScriptTree
