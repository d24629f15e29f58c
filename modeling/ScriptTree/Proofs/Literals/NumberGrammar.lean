import Mathlib
import ScriptTree.Literal.Number

/-!
# The grammar of numeric literals

The scanner is a finite machine. What completes a literal from one of its states is a language, and
reading one character makes each of these languages a sum over the states that may come next. Arden's
lemma solves the sums, so that a grammar gives the texts that are taken for a literal of each kind.

For decimal numbers it is not the grammar that is written down for them: behind the point, separators
may come in front of the first digit, and even take the place of all digits.
-/

namespace ScriptTree.Numeral

open Computability NumberScan

/-! ### Languages of characters -/

/-- The texts of one character that passes a test. -/
def oneOf (p : Char → Bool) : Language Char :=
  {cs | ∃ c, p c ∧ cs = [c]}

variable {p q : Char → Bool} {l m : Language Char} {c : Char} {cs : List Char}

theorem nil_notMem_oneOf (p : Char → Bool) : [] ∉ oneOf p := by
  rintro ⟨c, -, hc⟩
  exact List.cons_ne_nil c [] hc.symm

@[simp]
theorem nil_notMem_oneOf_mul (p : Char → Bool) (l : Language Char) : [] ∉ oneOf p * l := by
  rintro ⟨xs, ⟨c, -, rfl⟩, ys, -, h⟩
  exact List.cons_ne_nil c ys h

@[simp]
theorem cons_mem_oneOf_mul : c :: cs ∈ oneOf p * l ↔ p c ∧ cs ∈ l := by
  constructor
  · rintro ⟨xs, ⟨d, hd, rfl⟩, ys, hys, h⟩
    obtain ⟨rfl, rfl⟩ := List.cons.inj h
    exact ⟨hd, hys⟩
  · rintro ⟨hc, hcs⟩
    exact Language.append_mem_mul (show [c] ∈ oneOf p from ⟨c, hc, rfl⟩) hcs

theorem mem_oneOf_mul : cs ∈ oneOf p * l ↔ ∃ c rest, p c ∧ rest ∈ l ∧ cs = c :: rest := by
  cases cs with
  | nil => simp
  | cons c cs =>
    rw [cons_mem_oneOf_mul]
    constructor
    · rintro ⟨hc, hcs⟩
      exact ⟨c, cs, hc, hcs, rfl⟩
    · rintro ⟨d, rest, hd, hrest, h⟩
      obtain ⟨rfl, rfl⟩ := List.cons.inj h
      exact ⟨hd, hrest⟩

/-- Repeating a test goes through the characters. -/
theorem mem_kstar_oneOf : cs ∈ (oneOf p)∗ ↔ ∀ c ∈ cs, p c := by
  induction cs with
  | nil => simp [Language.nil_mem_kstar]
  | cons c cs ih =>
    rw [← Language.one_add_self_mul_kstar_eq_kstar, Language.mem_add, cons_mem_oneOf_mul, ih,
      List.forall_mem_cons, Language.mem_one, or_iff_right (List.cons_ne_nil c cs)]

/-- Either test passes. -/
theorem oneOf_add (p q : Char → Bool) : oneOf p + oneOf q = oneOf fun c => p c || q c := by
  ext cs
  simp only [Language.mem_add]
  constructor
  · rintro (⟨c, hc, rfl⟩ | ⟨c, hc, rfl⟩)
    · exact ⟨c, by simp [hc], rfl⟩
    · exact ⟨c, by simp [hc], rfl⟩
  · rintro ⟨c, hc, rfl⟩
    rcases Bool.or_eq_true_iff.1 hc with hc | hc
    · exact .inl ⟨c, hc, rfl⟩
    · exact .inr ⟨c, hc, rfl⟩

/-- Arden's lemma for a loop over single characters. -/
theorem eq_kstar_mul_of_loop (h : l = oneOf p * l + m) : l = (oneOf p)∗ * m :=
  (Language.self_eq_mul_add_iff (nil_notMem_oneOf p)).1 h

/-! ### The grammar -/

/-- `digit` -/
def digit : Language Char := oneOf Text.isDigit

/-- `"_"` -/
def separator : Language Char := oneOf (· == '_')

/-- `"."` -/
def point : Language Char := oneOf (· == '.')

/-- Whether `c` may stand in front of the digits of an exponent. -/
def isSign (c : Char) : Bool := c == '+' || c == '-'

/-- `digits = digit { digit | "_" }` -/
def digits : Language Char := digit * (digit + separator)∗

/-- `exponent = ( "e" | "E" ) [ "+" | "-" ] digits` -/
def exponent : Language Char := oneOf isExponentMark * (1 + oneOf isSign) * digits

/-- `decimal = digits [ "." [ digits ] ] [ exponent ] | "." digits [ exponent ]` -/
def decimal : Language Char :=
  digits * (1 + point * (1 + digits)) * (1 + exponent) + point * digits * (1 + exponent)

/-- Numbers with a separator right behind the point. -/
def displaced : Language Char :=
  digits * point * separator * (digit + separator)∗ * (1 + exponent)

/-- Whether `c` stands behind a zero in front of the digits of a base. -/
def marks : Radix → Char → Bool
  | .hexadecimal, c => c == 'x' || c == 'X'
  | .binary, c => c == 'b' || c == 'B'

/-- The literals of each kind. -/
def literals : NumberKind → Language Char
  | .integer => digits
  | .radixInteger radix =>
    oneOf (· == '0') * oneOf (marks radix) * separator∗ * oneOf radix.accepts *
      (oneOf radix.accepts + separator)∗
  | .float =>
    digits * (point * (digit + separator)∗ * (1 + exponent) + exponent) +
      point * digits * (1 + exponent)

theorem digit_add_separator : digit + separator = oneOf isDigitOrSeparator :=
  oneOf_add _ _

theorem mem_digits : cs ∈ digits ↔
    ∃ c rest, Text.isDigit c ∧ (∀ d ∈ rest, isDigitOrSeparator d) ∧ cs = c :: rest := by
  rw [digits, digit_add_separator, digit, mem_oneOf_mul]
  simp only [mem_kstar_oneOf]

theorem mem_optional : cs ∈ 1 + l ↔ cs = [] ∨ cs ∈ l := by
  rw [Language.mem_add, Language.mem_one]

theorem mem_exponent : cs ∈ exponent ↔ ∃ mark sign power, isExponentMark mark ∧
    (sign = [] ∨ ∃ s, isSign s ∧ sign = [s]) ∧ power ∈ digits ∧ cs = mark :: (sign ++ power) := by
  rw [exponent, mul_assoc, mem_oneOf_mul]
  constructor
  · rintro ⟨mark, -, hmark, ⟨sign, hsign, power, hpower, rfl⟩, rfl⟩
    exact ⟨mark, sign, power, hmark, mem_optional.1 hsign, hpower, rfl⟩
  · rintro ⟨mark, sign, power, hmark, hsign, hpower, rfl⟩
    exact ⟨mark, _, hmark, Language.append_mem_mul (mem_optional.2 hsign) hpower, rfl⟩

theorem isDigitOrSeparator_of_isDigit (h : Text.isDigit c) : isDigitOrSeparator c := by
  simp [isDigitOrSeparator, h]

/-- What may stand among digits is neither a point nor a part of an exponent. -/
theorem isDigitOrSeparator_excludes (h : isDigitOrSeparator c) :
    (c == '.') = false ∧ isExponentMark c = false ∧ isSign c = false := by
  have hne {d : Char} (hd : isDigitOrSeparator d = false) : c ≠ d := by
    rintro rfl
    exact Bool.false_ne_true (hd.symm.trans h)
  simp only [isExponentMark, isSign, Bool.or_eq_false_iff, beq_eq_false_iff_ne]
  exact ⟨hne rfl, ⟨hne rfl, hne rfl⟩, ⟨hne rfl, hne rfl⟩⟩

theorem isDigitOrSeparator_of_mem_digits (h : cs ∈ digits) : ∀ c ∈ cs, isDigitOrSeparator c := by
  obtain ⟨c, rest, hc, hrest, rfl⟩ := mem_digits.1 h
  exact List.forall_mem_cons.2 ⟨isDigitOrSeparator_of_isDigit hc, hrest⟩

/-! ### What completes a literal -/

variable {kind wanted : NumberKind} {scan : NumberScan}

/-- What completes a literal of a kind behind what was read. -/
def completions (kind : NumberKind) (scan : NumberScan) : Language Char :=
  {cs | (scan.feedAll cs).bind kind? = some kind}

/-- Nothing more, where a literal of the kind that is wanted is complete. -/
def ending (wanted kind : NumberKind) : Language Char :=
  if kind = wanted then 1 else 0

@[simp]
theorem nil_mem_ending : [] ∈ ending wanted kind ↔ kind = wanted := by
  unfold ending
  split <;> simp_all

@[simp]
theorem cons_notMem_ending : c :: cs ∉ ending wanted kind := by
  unfold ending
  split <;> simp_all

theorem nil_mem_completions : [] ∈ completions kind scan ↔ scan.kind? = some kind :=
  Iff.rfl

theorem cons_mem_completions : c :: cs ∈ completions kind scan ↔
    ∃ next, scan.feed c = some next ∧ cs ∈ completions kind next := by
  change ((scan.feedAll (c :: cs)).bind kind? = some kind) ↔ _
  rw [feedAll_cons]
  cases scan.feed c with
  | none => simp
  | some next =>
    simp only [Option.bind_some, Option.some.injEq, exists_eq_left']
    rfl

/-- What completes a literal is found character by character. -/
theorem completions_eq (hnil : scan.kind? = some kind ↔ [] ∈ l)
    (hcons : ∀ c cs, (∃ next, scan.feed c = some next ∧ cs ∈ completions kind next) ↔ c :: cs ∈ l) :
    completions kind scan = l := by
  ext cs
  cases cs with
  | nil => exact nil_mem_completions.trans hnil
  | cons c cs => exact cons_mem_completions.trans (hcons c cs)

/-! One equation for each state: the characters it reads, each in front of what completes a literal
from the next state. -/

theorem completions_exponentDigits : completions kind .exponentDigits =
    oneOf isDigitOrSeparator * completions kind .exponentDigits + ending kind .float := by
  refine completions_eq ?_ fun c cs => ?_
  · simp only [kind?, Language.mem_add, nil_notMem_oneOf_mul, nil_mem_ending, false_or,
      Option.some.injEq]
  · simp only [feed, Language.mem_add, cons_mem_oneOf_mul, cons_notMem_ending]
    grind

theorem completions_exponentSign :
    completions kind .exponentSign = digit * completions kind .exponentDigits := by
  refine completions_eq ?_ fun c cs => ?_
  · simp [kind?, digit]
  · simp [feed, digit]

theorem completions_exponent : completions kind .exponent =
    oneOf isSign * completions kind .exponentSign + digit * completions kind .exponentDigits := by
  refine completions_eq ?_ fun c cs => ?_
  · simp only [kind?, digit, Language.mem_add, nil_notMem_oneOf_mul, or_self, reduceCtorEq]
  · simp only [feed, digit, Language.mem_add, cons_mem_oneOf_mul]
    grind [→ isDigitOrSeparator_of_isDigit, → isDigitOrSeparator_excludes, isSign]

theorem completions_fraction : completions kind .fraction =
    oneOf isDigitOrSeparator * completions kind .fraction +
      (oneOf isExponentMark * completions kind .exponent + ending kind .float) := by
  refine completions_eq ?_ fun c cs => ?_
  · simp only [kind?, Language.mem_add, nil_notMem_oneOf_mul, nil_mem_ending, false_or,
      Option.some.injEq]
  · simp only [feed, Language.mem_add, cons_mem_oneOf_mul, cons_notMem_ending]
    grind [→ isDigitOrSeparator_excludes]

theorem completions_leadingDot :
    completions kind .leadingDot = digit * completions kind .fraction := by
  refine completions_eq ?_ fun c cs => ?_
  · simp [kind?, digit]
  · simp [feed, digit]

theorem completions_integer : completions kind .integer =
    oneOf isDigitOrSeparator * completions kind .integer +
      (point * completions kind .fraction + oneOf isExponentMark * completions kind .exponent +
        ending kind .integer) := by
  refine completions_eq ?_ fun c cs => ?_
  · simp only [kind?, point, Language.mem_add, nil_notMem_oneOf_mul, nil_mem_ending, false_or,
      Option.some.injEq]
  · simp only [feed, point, Language.mem_add, cons_mem_oneOf_mul, cons_notMem_ending]
    grind [→ isDigitOrSeparator_excludes, isExponentMark]

/-- What completes a number whose base is given, in front of the mark of the base. -/
def marked (kind : NumberKind) : Language Char :=
  oneOf (marks .hexadecimal) * completions kind (.mark .hexadecimal) +
    oneOf (marks .binary) * completions kind (.mark .binary)

/-- Behind another digit than zero, the mark of a base has no place. -/
theorem feed_integer_of_mark {radix : Radix} (h : marks radix c) :
    NumberScan.feed .integer c = none := by
  cases radix <;> simp only [marks, Bool.or_eq_true, beq_iff_eq] at h <;>
    rcases h with rfl | rfl <;> rfl

theorem completions_zero : completions kind .zero = completions kind .integer + marked kind := by
  refine completions_eq ?_ fun c cs => ?_
  · simp only [marked, Language.mem_add, nil_notMem_oneOf_mul, or_false]
    exact Iff.rfl
  · have hmark (radix : Radix) : marks radix c → NumberScan.feed .integer c = none :=
      feed_integer_of_mark
    have hbinary : marks .hexadecimal c → marks .binary c = false := by
      grind [marks]
    have hfeed : NumberScan.feed .zero c =
        if marks .hexadecimal c then some (.mark .hexadecimal)
        else if marks .binary c then some (.mark .binary)
        else NumberScan.feed .integer c := rfl
    simp only [hfeed, marked, Language.mem_add, cons_mem_oneOf_mul, cons_mem_completions]
    grind

theorem completions_start : completions kind .start =
    digit * completions kind .integer + oneOf (· == '0') * marked kind +
      point * completions kind .leadingDot := by
  refine completions_eq ?_ fun c cs => ?_
  · simp only [kind?, digit, point, Language.mem_add, nil_notMem_oneOf_mul, reduceCtorEq, or_self]
  · have hzero : Text.isDigit '0' := rfl
    simp only [feed, digit, point, Language.mem_add, cons_mem_oneOf_mul]
    grind [completions_zero, Language.mem_add, → isDigitOrSeparator_of_isDigit,
      → isDigitOrSeparator_excludes]

theorem accepts_separator (radix : Radix) : radix.accepts '_' = false := by
  cases radix <;> rfl

theorem completions_mark (radix : Radix) : completions kind (.mark radix) =
    separator * completions kind (.mark radix) +
      oneOf radix.accepts * completions kind (.radixDigits radix) := by
  refine completions_eq ?_ fun c cs => ?_
  · simp only [kind?, separator, Language.mem_add, nil_notMem_oneOf_mul, reduceCtorEq, or_self]
  · have hseparator := accepts_separator radix
    simp only [feed, separator, Language.mem_add, cons_mem_oneOf_mul]
    grind

theorem completions_radixDigits (radix : Radix) : completions kind (.radixDigits radix) =
    oneOf (fun c => radix.accepts c || c == '_') * completions kind (.radixDigits radix) +
      ending kind (.radixInteger radix) := by
  refine completions_eq ?_ fun c cs => ?_
  · simp only [kind?, Language.mem_add, nil_notMem_oneOf_mul, nil_mem_ending, false_or,
      Option.some.injEq]
  · simp only [feed, Language.mem_add, cons_mem_oneOf_mul, cons_notMem_ending]
    grind

/-! ### Solving the equations -/

theorem digit_mul_completions_exponentDigits :
    digit * completions kind .exponentDigits = digits * ending kind .float := by
  rw [eq_kstar_mul_of_loop completions_exponentDigits, digits, digit_add_separator, mul_assoc]

theorem mark_mul_completions_exponent :
    oneOf isExponentMark * completions kind .exponent = exponent * ending kind .float := by
  rw [completions_exponent, completions_exponentSign, digit_mul_completions_exponentDigits, exponent]
  simp only [mul_assoc, add_mul, mul_add, one_mul]
  exact add_comm _ _

theorem completions_fraction_eq : completions kind .fraction =
    (digit + separator)∗ * ((1 + exponent) * ending kind .float) := by
  rw [eq_kstar_mul_of_loop completions_fraction, mark_mul_completions_exponent,
    digit_add_separator, add_mul, one_mul, add_comm]

theorem digit_mul_completions_integer : digit * completions kind .integer =
    digits * (point * ((digit + separator)∗ * ((1 + exponent) * ending kind .float)) +
      exponent * ending kind .float + ending kind .integer) := by
  rw [eq_kstar_mul_of_loop completions_integer, completions_fraction_eq,
    mark_mul_completions_exponent, digits, digit_add_separator, mul_assoc]

theorem zero_mul_marked : oneOf (· == '0') * marked kind =
    literals (.radixInteger .hexadecimal) * ending kind (.radixInteger .hexadecimal) +
      literals (.radixInteger .binary) * ending kind (.radixInteger .binary) := by
  have hmark (radix : Radix) : completions kind (.mark radix) =
      separator∗ * oneOf radix.accepts * (oneOf radix.accepts + separator)∗ *
        ending kind (.radixInteger radix) := by
    rw [eq_kstar_mul_of_loop (completions_mark radix),
      eq_kstar_mul_of_loop (completions_radixDigits radix), separator, oneOf_add]
    simp only [mul_assoc]
  simp only [marked, hmark, literals, mul_add, mul_assoc]

/-- The texts that are taken for a literal of a kind are those of the grammar. -/
theorem completions_start_eq (kind : NumberKind) : completions kind .start = literals kind := by
  have hstart : completions kind .start =
      literals .integer * ending kind .integer + literals .float * ending kind .float +
        (literals (.radixInteger .hexadecimal) * ending kind (.radixInteger .hexadecimal) +
          literals (.radixInteger .binary) * ending kind (.radixInteger .binary)) := by
    rw [completions_start, digit_mul_completions_integer, zero_mul_marked, completions_leadingDot,
      completions_fraction_eq]
    simp only [literals, mul_add, add_mul, mul_assoc, mul_one, one_mul, digits]
    abel
  rw [hstart]
  cases kind with
  | integer => simp [ending]
  | float => simp [ending]
  | radixInteger radix => cases radix <;> simp [ending]

theorem mem_literals_iff : cs ∈ literals kind ↔
    (NumberScan.start.feedAll cs).bind kind? = some kind := by
  rw [← completions_start_eq]
  rfl

/-! ### Decimal numbers -/

/-- Decimal literals are the numbers of the grammar and those with a displaced separator. -/
theorem integer_add_float : literals .integer + literals .float = decimal + displaced := by
  have hloop : (digit + separator)∗ = 1 + (digits + separator * (digit + separator)∗) := by
    conv => lhs; rw [← Language.one_add_self_mul_kstar_eq_kstar, add_mul]
    rfl
  have hfraction : digits * point * (digit + separator)∗ =
      digits * point + digits * point * digits +
        digits * point * separator * (digit + separator)∗ := by
    conv => lhs; rw [hloop]
    simp only [mul_add, mul_one, mul_assoc, add_assoc]
  have hliterals : literals .integer + literals .float =
      digits * (1 + exponent) + digits * point * (digit + separator)∗ * (1 + exponent) +
        point * digits * (1 + exponent) := by
    simp only [literals, mul_add, mul_one, mul_assoc]
    abel
  have hdecimal : decimal = digits * (1 + exponent) +
      (digits * point + digits * point * digits) * (1 + exponent) +
        point * digits * (1 + exponent) := by
    simp only [decimal, mul_add, add_mul, mul_one, mul_assoc]
    abel
  rw [hliterals, hdecimal, hfraction, add_mul _ _ (1 + exponent), displaced]
  abel

/-- The character behind the first point. -/
def behindPoint? (cs : List Char) : Option Char :=
  ((cs.dropWhile (· != '.')).drop 1).head?

theorem behindPoint?_append {xs : List Char} (h : '.' ∉ xs) (ys : List Char) :
    behindPoint? (xs ++ ys) = behindPoint? ys := by
  have hskip (c) (hc : c ∈ xs) : (c != '.') = true := by
    rw [bne_iff_ne]
    rintro rfl
    exact h hc
  rw [behindPoint?, List.dropWhile_append_of_pos hskip]
  rfl

theorem behindPoint?_point (xs : List Char) : behindPoint? ('.' :: xs) = xs.head? := rfl

theorem point_notMem_digits (h : cs ∈ digits) : '.' ∉ cs := by
  intro hpoint
  exact absurd (isDigitOrSeparator_of_mem_digits h _ hpoint) (by decide)

theorem point_notMem_power (h : cs ∈ 1 + exponent) : '.' ∉ cs := by
  obtain rfl | h := mem_optional.1 h
  · exact List.not_mem_nil
  obtain ⟨mark, sign, power, hmark, hsign, hpower, rfl⟩ := mem_exponent.1 h
  simp only [List.mem_cons, List.mem_append, point_notMem_digits hpower, or_false, not_or]
  refine ⟨?_, ?_⟩
  · rintro rfl
    exact absurd hmark (by decide)
  · obtain rfl | ⟨s, hs, rfl⟩ := hsign
    · exact List.not_mem_nil
    · rintro hpoint
      obtain rfl := List.mem_singleton.1 hpoint
      exact absurd hs (by decide)

/-- In a number of the grammar, a digit or the exponent stands behind the point. -/
theorem head?_ne_separator {xs ys : List Char} (hxs : xs ∈ 1 + digits) (hys : ys ∈ 1 + exponent) :
    (xs ++ ys).head? ≠ some '_' := by
  obtain rfl | hxs := mem_optional.1 hxs
  · obtain rfl | hys := mem_optional.1 hys
    · exact nofun
    · obtain ⟨mark, sign, power, hmark, -, -, rfl⟩ := mem_exponent.1 hys
      rintro ⟨⟩
      exact absurd hmark (by decide)
  · obtain ⟨c, rest, hc, -, rfl⟩ := mem_digits.1 hxs
    rintro ⟨⟩
    exact absurd hc (by decide)

theorem behindPoint?_of_mem_decimal (h : cs ∈ decimal) : behindPoint? cs ≠ some '_' := by
  rw [decimal, mul_assoc, mul_assoc, Language.mem_add] at h
  rcases h with h | h
  · obtain ⟨whole, hwhole, rest, hrest, rfl⟩ := Language.mem_mul.1 h
    obtain ⟨fraction, hfraction, power, hpower, rfl⟩ := Language.mem_mul.1 hrest
    rw [behindPoint?_append (point_notMem_digits hwhole)]
    obtain rfl | hfraction := mem_optional.1 hfraction
    · have hnone : behindPoint? power = none := by
        rw [← List.append_nil power, behindPoint?_append (point_notMem_power hpower)]
        rfl
      exact hnone ▸ nofun
    · obtain ⟨c, more, hc, hmore, rfl⟩ := mem_oneOf_mul.1 hfraction
      obtain rfl := beq_iff_eq.1 hc
      rw [List.cons_append, behindPoint?_point]
      exact head?_ne_separator hmore hpower
  · obtain ⟨c, rest, hc, hrest, rfl⟩ := mem_oneOf_mul.1 h
    obtain ⟨fraction, hfraction, power, hpower, rfl⟩ := Language.mem_mul.1 hrest
    obtain rfl := beq_iff_eq.1 hc
    rw [behindPoint?_point]
    exact head?_ne_separator (mem_optional.2 (.inr hfraction)) hpower

theorem behindPoint?_of_mem_displaced (h : cs ∈ displaced) : behindPoint? cs = some '_' := by
  rw [displaced, mul_assoc, mul_assoc, mul_assoc] at h
  obtain ⟨whole, hwhole, rest, hrest, rfl⟩ := Language.mem_mul.1 h
  obtain ⟨c, rest, hc, hfraction, rfl⟩ := mem_oneOf_mul.1 hrest
  obtain ⟨d, rest, hd, -, rfl⟩ := mem_oneOf_mul.1 hfraction
  obtain rfl := beq_iff_eq.1 hc
  obtain rfl := beq_iff_eq.1 hd
  rw [behindPoint?_append (point_notMem_digits hwhole), behindPoint?_point, List.head?_cons]

theorem zero_mark_of_mem_radix {radix : Radix} (h : cs ∈ literals (.radixInteger radix)) :
    ∃ mark rest, marks radix mark ∧ cs = '0' :: mark :: rest := by
  simp only [literals, mul_assoc] at h
  obtain ⟨zero, rest, hzero, hrest, rfl⟩ := mem_oneOf_mul.1 h
  obtain ⟨mark, rest, hmark, -, rfl⟩ := mem_oneOf_mul.1 hrest
  obtain rfl := beq_iff_eq.1 hzero
  exact ⟨mark, rest, hmark, rfl⟩

/-- A text that does not begin with the mark of a base is taken for a literal exactly if it is a
decimal number of the grammar or one with a separator right behind the point. It is never both. -/
theorem isSome_kind?_iff (text : String)
    (hmarks : ∀ mark ∈ ['x', 'X', 'b', 'B'], ¬ ['0', mark] <+: text.toList) :
    (((NumberScan.start.feedAll text.toList).bind kind?).isSome ↔
      text.toList ∈ decimal ∨ text.toList ∈ displaced) ∧
    ¬ (text.toList ∈ decimal ∧ text.toList ∈ displaced) := by
  refine ⟨?_, fun ⟨hdecimal, hdisplaced⟩ =>
    behindPoint?_of_mem_decimal hdecimal (behindPoint?_of_mem_displaced hdisplaced)⟩
  have hradix (radix : Radix) : text.toList ∉ literals (.radixInteger radix) := by
    intro h
    obtain ⟨mark, rest, hmark, htext⟩ := zero_mark_of_mem_radix h
    refine hmarks mark ?_ ⟨rest, htext.symm⟩
    cases radix <;> simp only [marks, Bool.or_eq_true, beq_iff_eq] at hmark <;>
      rcases hmark with rfl | rfl <;> decide
  rw [← Language.mem_add, ← integer_add_float, Language.mem_add, Option.isSome_iff_exists]
  simp only [← mem_literals_iff]
  constructor
  · rintro ⟨kind, hkind⟩
    cases kind with
    | integer => exact .inl hkind
    | float => exact .inr hkind
    | radixInteger radix => exact (hradix radix hkind).elim
  · rintro (h | h)
    · exact ⟨_, h⟩
    · exact ⟨_, h⟩

/-- A number of the grammar, with a separator among its digits. -/
theorem isSome_kind?_iff_separated :
    (∀ mark ∈ ['x', 'X', 'b', 'B'], ¬ ['0', mark] <+: "1_0.5e-3".toList) ∧
    ((NumberScan.start.feedAll "1_0.5e-3".toList).bind kind?).isSome ∧
    "1_0.5e-3".toList ∈ decimal := by
  have hmarks : ∀ mark ∈ ['x', 'X', 'b', 'B'], ¬ ['0', mark] <+: "1_0.5e-3".toList := by decide
  have hkind : ((NumberScan.start.feedAll "1_0.5e-3".toList).bind kind?).isSome := by decide
  obtain hdecimal | hdisplaced := (isSome_kind?_iff _ hmarks).1.1 hkind
  · exact ⟨hmarks, hkind, hdecimal⟩
  · exact absurd (behindPoint?_of_mem_displaced hdisplaced) (by decide)

/-- A separator right behind the point is taken, although the grammar has no such number. -/
theorem kind?_displaced : (∀ mark ∈ ['x', 'X', 'b', 'B'], ¬ ['0', mark] <+: "1._5".toList) ∧
    (NumberScan.start.feedAll "1._5".toList).bind kind? = some .float ∧
    "1._5".toList ∉ decimal := by
  refine ⟨by decide, by decide, fun h => behindPoint?_of_mem_decimal h ?_⟩
  decide

end ScriptTree.Numeral
