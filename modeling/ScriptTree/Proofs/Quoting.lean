import Mathlib.Data.List.Basic
import ScriptTree.Text.Quoted

/-!
# Quoted text can be read back

What is written for a character between quotes is recognized whatever follows it: a character that
stands for itself is no backslash, and after a backslash the next character tells what was escaped.
The closing quote begins no escape, so that the end of the text is recognized too.
-/

namespace ScriptTree

/-- Lists that agree as wholes agree in their first runs of what passes a test, if that is where the
runs end. -/
theorem append_inj_of_takeWhile {α : Type} {p : α → Bool} {xs ys rest rest' : List α}
    (hxs : ∀ x ∈ xs, p x) (hys : ∀ y ∈ ys, p y) (hrest : rest.takeWhile p = [])
    (hrest' : rest'.takeWhile p = []) (heq : xs ++ rest = ys ++ rest') : xs = ys ∧ rest = rest' := by
  have hruns := congrArg (List.takeWhile p) heq
  rw [List.takeWhile_append_of_pos hxs, List.takeWhile_append_of_pos hys, hrest, hrest',
    List.append_nil, List.append_nil] at hruns
  subst hruns
  exact ⟨rfl, List.append_cancel_left heq⟩

/-- Characters up to a separator are told from what follows it. -/
theorem append_separator_inj {stop : Char} {xs ys rest rest' : List Char} (hxs : stop ∉ xs)
    (hys : stop ∉ ys) (heq : xs ++ stop :: rest = ys ++ stop :: rest') : xs = ys ∧ rest = rest' := by
  have hrun {cs : List Char} (hcs : stop ∉ cs) : ∀ c ∈ cs, c != stop := fun c hc =>
    bne_iff_ne.2 fun hstop => hcs (hstop ▸ hc)
  obtain ⟨hfront, hback⟩ := append_inj_of_takeWhile (hrun hxs) (hrun hys) (by simp) (by simp) heq
  exact ⟨hfront, (List.cons.inj hback).2⟩

/-- What is written can be read back, whatever follows it. -/
def Readable {α : Type} (write : α → List Char) : Prop :=
  ∀ x y rest rest', write x ++ rest = write y ++ rest' → x = y ∧ rest = rest'

/-- If things can be read back, so can a list of them that is closed by a character with which nothing
else begins. -/
theorem Readable.closed {α : Type} {write : α → List Char} {stop : Char} (h : Readable write)
    (hstop : ∀ x, ∃ c cs, write x = c :: cs ∧ c ≠ stop) :
    Readable fun xs : List α => xs.flatMap write ++ [stop] := by
  intro xs
  induction xs with
  | nil =>
    intro ys rest rest' heq
    cases ys with
    | nil => exact ⟨rfl, (List.cons.inj heq).2⟩
    | cons y ys =>
      obtain ⟨c, cs, hc, hne⟩ := hstop y
      simp only [List.flatMap_cons, hc] at heq
      exact absurd (List.cons.inj heq).1.symm hne
  | cons x xs ih =>
    intro ys rest rest' heq
    cases ys with
    | nil =>
      obtain ⟨c, cs, hc, hne⟩ := hstop x
      simp only [List.flatMap_cons, hc] at heq
      exact absurd (List.cons.inj heq).1 hne
    | cons y ys =>
      simp only [List.flatMap_cons, List.append_assoc] at heq
      obtain ⟨rfl, htail⟩ := h x y _ _ heq
      obtain ⟨rfl, hrest⟩ := ih ys rest rest' (by simpa using htail)
      exact ⟨rfl, hrest⟩

namespace Text

/-! ### Numbers in base sixteen -/

/-- A digit tells the number below sixteen that it stands for. -/
theorem digitChar_inj {n m : Nat} (hn : n < 16) (hm : m < 16) (h : n.digitChar = m.digitChar) :
    n = m := by
  have hall : ∀ i < 16, ∀ j < 16, i.digitChar = j.digitChar → i = j := by decide
  exact hall n hn m hm h

/-- The digits of a number tell the number. -/
theorem hexDigits_inj {n m : Nat} (h : hexDigits n = hexDigits m) : n = m := by
  unfold hexDigits at h
  induction n using Nat.strongRecOn generalizing m with
  | ind n ih =>
    have hpos (k : Nat) : 0 < (Nat.toDigits 16 k).length :=
      List.length_pos_iff.2 Nat.toDigits_ne_nil
    rcases Nat.lt_or_ge n 16 with hn | hn <;> rcases Nat.lt_or_ge m 16 with hm | hm
    · rw [Nat.toDigits_of_lt_base hn, Nat.toDigits_of_lt_base hm] at h
      exact digitChar_inj hn hm (List.cons.inj h).1
    · rw [Nat.toDigits_of_lt_base hn, Nat.toDigits_of_base_le (by decide) hm] at h
      have hlength := congrArg List.length h
      have := hpos (m / 16)
      simp only [List.length_append, List.length_singleton] at hlength
      omega
    · rw [Nat.toDigits_of_base_le (by decide) hn, Nat.toDigits_of_lt_base hm] at h
      have hlength := congrArg List.length h
      have := hpos (n / 16)
      simp only [List.length_append, List.length_singleton] at hlength
      omega
    · rw [Nat.toDigits_of_base_le (by decide) hn, Nat.toDigits_of_base_le (by decide) hm] at h
      obtain ⟨hfront, hlast⟩ := List.append_inj' h rfl
      have hquotient := ih (n / 16) (by omega) hfront
      have hremainder := digitChar_inj (by omega) (by omega) (List.cons.inj hlast).1
      omega

/-- No digit is a closing brace. -/
theorem brace_notMem_hexDigits (n : Nat) : '\x7d' ∉ hexDigits n := by
  have hdigit : ∀ i < 16, '\x7d' ≠ i.digitChar := by decide
  unfold hexDigits
  induction n using Nat.strongRecOn with
  | ind n ih =>
    rcases Nat.lt_or_ge n 16 with hn | hn
    · rw [Nat.toDigits_of_lt_base hn, List.mem_singleton]
      exact hdigit n hn
    · rw [Nat.toDigits_of_base_le (by decide) hn, List.mem_append, List.mem_singleton, not_or]
      exact ⟨ih (n / 16) (by omega), hdigit (n % 16) (by omega)⟩

/-! ### Escapes -/

/-- The characters that are escaped by one character, each with that. -/
def shortEscapes : List (Char × Char) :=
  [('\x00', '0'), ('\t', 't'), ('\r', 'r'), ('\n', 'n'), ('"', '"'), ('\\', '\\')]

/-- A character is escaped by another, or by its number, or stands for itself. -/
theorem escape_cases (c : Char) :
    (∃ e, (c, e) ∈ shortEscapes ∧ escape c = ['\\', e]) ∨
      escape c = ['\\', 'u', '\x7b'] ++ hexDigits c.toNat ++ ['\x7d'] ∨
      (escape c = [c] ∧ c ≠ '\\' ∧ c ≠ '"') := by
  by_cases hshort : ∃ e, (c, e) ∈ shortEscapes
  · obtain ⟨e, he⟩ := hshort
    refine .inl ⟨e, he, ?_⟩
    simp only [shortEscapes, List.mem_cons, List.not_mem_nil, or_false, Prod.mk.injEq] at he
    rcases he with ⟨rfl, rfl⟩ | ⟨rfl, rfl⟩ | ⟨rfl, rfl⟩ | ⟨rfl, rfl⟩ | ⟨rfl, rfl⟩ | ⟨rfl, rfl⟩ <;>
      rfl
  · simp only [shortEscapes, List.mem_cons, List.not_mem_nil, or_false, Prod.mk.injEq,
      exists_or, exists_eq_right, not_or] at hshort
    obtain ⟨hnull, htab, hreturn, hfeed, hquote, hbackslash⟩ := hshort
    rw [escape, if_neg hnull, if_neg htab, if_neg hreturn, if_neg hfeed, if_neg hquote,
      if_neg hbackslash]
    by_cases hcode : needsCode c
    · rw [if_pos hcode]
      exact .inr (.inl rfl)
    · rw [if_neg hcode]
      exact .inr (.inr ⟨rfl, hbackslash, hquote⟩)

/-- Escaped characters can be read back. -/
theorem readable_escape : Readable escape := by
  have hshort : ∀ p ∈ shortEscapes, p.2 ≠ 'u' ∧ ∀ q ∈ shortEscapes, p.2 = q.2 → p.1 = q.1 := by
    decide
  intro c d rest rest' heq
  rcases escape_cases c with ⟨e, he, hc⟩ | hc | ⟨hc, hne, -⟩ <;>
    rcases escape_cases d with ⟨e', he', hd⟩ | hd | ⟨hd, hne', -⟩ <;>
    simp only [hc, hd, List.cons_append, List.nil_append, List.append_assoc, List.cons.injEq,
      true_and] at heq
  · exact ⟨(hshort _ he).2 _ he' heq.1, heq.2⟩
  · exact absurd heq.1 (hshort _ he).1
  · exact absurd heq.1.symm hne'
  · exact absurd heq.1.symm (hshort _ he').1
  · obtain ⟨hdigits, hrest⟩ :=
      append_separator_inj (brace_notMem_hexDigits _) (brace_notMem_hexDigits _) heq
    exact ⟨Char.toNat_inj.1 (hexDigits_inj hdigits), hrest⟩
  · exact absurd heq.1.symm hne'
  · exact absurd heq.1 hne
  · exact absurd heq.1 hne
  · exact heq

/-- Quoted text can be read back. -/
theorem readable_quoted : Readable fun text => (quoted text).toList := by
  have hstop (c : Char) : ∃ e cs, escape c = e :: cs ∧ e ≠ '"' := by
    rcases escape_cases c with ⟨e, -, hc⟩ | hc | ⟨hc, -, hne⟩
    · exact ⟨_, _, hc, by decide⟩
    · exact ⟨_, _, hc, by decide⟩
    · exact ⟨_, _, hc, hne⟩
  intro s t rest rest' heq
  simp only [quoted, String.toList_ofList, List.cons_append, List.cons.injEq, true_and] at heq
  obtain ⟨hchars, hrest⟩ := readable_escape.closed hstop _ _ _ _ heq
  exact ⟨String.toList_inj.1 hchars, hrest⟩

end Text

end ScriptTree
