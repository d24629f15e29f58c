import Mathlib.Data.Nat.Digits.Defs
import Mathlib.Data.List.Forall2
import Mathlib.Data.List.Induction
import ScriptTree.Text.CharClass

/-!
# Digits and the number they denote

Digits are read one by one, each step moving what was read before up by one place. What they denote
is said without the reading: the digit in the last place counts once, the one in front of it as often
as the base, and so on.
-/

namespace ScriptTree.Text

/-- A character is a digit of a base. -/
def IsDigitOf (base : Nat) (c : Char) (digit : Nat) : Prop :=
  hexValue? c = some digit ∧ digit < base

/-- The characters are digits of a base, and this is the number they denote. -/
def Denotes (base : Nat) (cs : List Char) (value : Nat) : Prop :=
  ∃ digits, List.Forall₂ (IsDigitOf base) cs.reverse digits ∧ value = Nat.ofDigits base digits

variable {base value : Nat} {c : Char} {cs : List Char}

theorem denotes_nil : Denotes base [] value ↔ value = 0 := by
  simp only [Denotes, List.reverse_nil, List.forall₂_nil_left_iff, exists_eq_left, Nat.ofDigits_nil]

/-- One more digit moves the digits in front of it up by one place. -/
theorem denotes_append_singleton : Denotes base (cs ++ [c]) value ↔
    ∃ front digit, Denotes base cs front ∧ IsDigitOf base c digit ∧ value = front * base + digit := by
  simp only [Denotes, List.reverse_append, List.reverse_singleton, List.singleton_append,
    List.forall₂_cons_left_iff]
  constructor
  · rintro ⟨-, ⟨digit, digits, hdigit, hdigits, rfl⟩, rfl⟩
    refine ⟨_, digit, ⟨digits, hdigits, rfl⟩, hdigit, ?_⟩
    rw [Nat.ofDigits_cons, Nat.mul_comm, Nat.add_comm]
  · rintro ⟨-, digit, ⟨digits, hdigits, rfl⟩, hdigit, rfl⟩
    refine ⟨digit :: digits, ⟨digit, digits, hdigit, hdigits, rfl⟩, ?_⟩
    rw [Nat.ofDigits_cons, Nat.mul_comm, Nat.add_comm]

/-- Whatever the digits are, they denote a number. -/
theorem exists_denotes (h : ∀ c ∈ cs, ∃ digit, IsDigitOf base c digit) :
    ∃ value, Denotes base cs value := by
  induction cs using List.reverseRecOn with
  | nil => exact ⟨0, denotes_nil.2 rfl⟩
  | append_singleton cs c ih =>
    simp only [List.mem_append, List.mem_singleton, or_imp, forall_and, forall_eq] at h
    obtain ⟨front, hfront⟩ := ih h.1
    obtain ⟨digit, hdigit⟩ := h.2
    exact ⟨_, denotes_append_singleton.2 ⟨front, digit, hfront, hdigit, rfl⟩⟩

/-- What denotes a number consists of digits. -/
theorem Denotes.isDigitOf (h : Denotes base cs value) (hc : c ∈ cs) :
    ∃ digit, IsDigitOf base c digit := by
  obtain ⟨digits, hdigits, -⟩ := h
  obtain ⟨i, hi, rfl⟩ := List.getElem_of_mem (List.mem_reverse.2 hc)
  exact ⟨_, hdigits.get hi (hdigits.length_eq ▸ hi)⟩

/-- Digits are less than sixteen, and their characters take one byte. -/
theorem hexValue?_bounds {digit : Nat} (h : hexValue? c = some digit) :
    digit < 16 ∧ c.toNat < 128 := by
  have hle {d : Char} (hd : c ≤ d) : c.toNat ≤ d.toNat := hd
  simp only [hexValue?, Bool.and_eq_true, decide_eq_true_eq] at h
  split_ifs at h with hdecimal hlower hupper
  · have hlast := hle hdecimal.2
    simp only [Char.reduceToNat, Option.some.injEq] at hlast h
    omega
  · have hlast := hle hlower.2
    simp only [Char.reduceToNat, Option.some.injEq] at hlast h
    omega
  · have hlast := hle hupper.2
    simp only [Char.reduceToNat, Option.some.injEq] at hlast h
    omega

/-- The ten decimal digits. -/
theorem exists_isDigitOf_ten (h : isDigit c) : ∃ digit, IsDigitOf 10 c digit := by
  rw [isDigit, Bool.and_eq_true, decide_eq_true_eq, decide_eq_true_eq] at h
  have hlast : c.toNat ≤ '9'.toNat := h.2
  refine ⟨c.toNat - '0'.toNat, by simp [hexValue?, h], ?_⟩
  simp only [Char.reduceToNat] at hlast ⊢
  omega

end ScriptTree.Text
