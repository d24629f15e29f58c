import Mathlib
import ScriptTree.Proofs.Literals.Digits
import ScriptTree.Proofs.Literals.NumberGrammar

/-!
# The values of numeric literals

The grammar says what stands in a literal of each kind, and so what the conversions have to deal with.
The digits of an integer always denote a number. It is computed in a word with a check at each step,
and the checks together come to one on the whole number, since no number gets smaller by another digit
behind it. A floating-point literal always has digits in front of its exponent and in it.
-/

namespace ScriptTree

open Computability

/-! ### Integers -/

namespace NumberValue

variable {base value digit n : Nat} {c : Char} {cs : List Char}

theorem word?_eq_some_iff : word? n = some value ↔ n ≤ maxWord ∧ n = value := by
  unfold word?
  split <;> simp_all

theorem digitValue?_eq_some_iff : digitValue? base c = some digit ↔ Text.IsDigitOf base c digit := by
  simp only [digitValue?, Text.IsDigitOf, Option.filter_eq_some_iff, decide_eq_true_eq]

/-- A word with a further digit is the number it denotes, unless that is too large. -/
theorem word?_bind_pushDigit? (hbase : 0 < base) (hdigit : Text.IsDigitOf base c digit) (front : Nat) :
    (word? front).bind (pushDigit? base · c) = word? (front * base + digit) := by
  have hc : c ≠ '_' := by
    rintro rfl
    have hnone : Text.hexValue? '_' = none := by decide
    cases hnone.symm.trans hdigit.1
  have hpush (n : Nat) : pushDigit? base n c =
      (word? (n * base)).bind fun shifted => word? (shifted + digit) := by
    rw [pushDigit?, if_neg hc, digitValue?_eq_some_iff.2 hdigit]
    rfl
  have hfront : front ≤ front * base := Nat.le_mul_of_pos_right front hbase
  simp only [hpush]
  by_cases hword : front * base ≤ maxWord
  · rw [word?, if_pos (hfront.trans hword), Option.bind_some, word?, if_pos hword, Option.bind_some]
  · have hnone : word? (front * base) = none := if_neg hword
    have hnone' : word? (front * base + digit) = none := if_neg (by omega)
    cases hw : word? front with
    | none => rw [hnone', Option.bind_none]
    | some v =>
      obtain ⟨-, rfl⟩ := word?_eq_some_iff.1 hw
      rw [Option.bind_some, hnone, hnone', Option.bind_none]

/-- The steps compute the number that the digits denote if it fits in a word, and fail otherwise. -/
theorem foldlM_pushDigit? (hbase : 0 < base) (h : Text.Denotes base (cs.filter (· != '_')) value) :
    cs.foldlM (pushDigit? base) 0 = word? value := by
  induction cs using List.reverseRecOn generalizing value with
  | nil =>
    obtain rfl := Text.denotes_nil.1 h
    rfl
  | append_singleton cs c ih =>
    have hlast : (cs ++ [c]).foldlM (pushDigit? base) 0 =
        (cs.foldlM (pushDigit? base) 0).bind (pushDigit? base · c) := by
      simp only [List.foldlM_append, List.foldlM_cons, List.foldlM_nil, bind_pure]
      rfl
    rw [hlast]
    rw [List.filter_append] at h
    by_cases hc : c = '_'
    · subst hc
      have hnone : ['_'].filter (· != '_') = [] := rfl
      have hskip : (pushDigit? base · '_') = some := funext fun _ => if_pos rfl
      rw [hnone, List.append_nil] at h
      rw [ih h, hskip, Option.bind_fun_some]
    · have hsingle : [c].filter (· != '_') = [c] := by simp [hc]
      rw [hsingle] at h
      obtain ⟨front, digit, hfront, hdigit, rfl⟩ := Text.denotes_append_singleton.1 h
      rw [ih hfront, word?_bind_pushDigit? hbase hdigit]

/-- The integer is the number that the digits denote, unless that is too large for a literal. -/
theorem integer?_eq (hbase : 0 < base) (h : Text.Denotes base (cs.filter (· != '_')) value) :
    integer? base cs = if value ≤ maxInteger then some value else none := by
  rw [integer?, foldlM_pushDigit? hbase h, word?]
  by_cases hword : value ≤ maxWord
  · rw [if_pos hword, Option.filter_some]
    simp
  · have hlarge : ¬ value ≤ maxInteger := by
      unfold maxWord at hword
      unfold maxInteger
      omega
    rw [if_neg hword, if_neg hlarge, Option.filter_none]

/-- Digits of a base with separators among them are a literal of the number they denote. -/
theorem exists_orError_integer? (hbase : 0 < base) (error : LiteralError)
    (h : ∀ c ∈ cs, (∃ digit, Text.IsDigitOf base c digit) ∨ c = '_') :
    ∃ value, Text.Denotes base (cs.filter (· != '_')) value ∧
      orError error ((integer? base cs).map .integer) =
        if value ≤ maxInteger then .ok (.integer value) else .error error := by
  have hdigits : ∀ c ∈ cs.filter (· != '_'), ∃ digit, Text.IsDigitOf base c digit := by
    intro c hc
    obtain ⟨hmem, hne⟩ := List.mem_filter.1 hc
    exact (h c hmem).resolve_right (bne_iff_ne.1 hne)
  obtain ⟨value, hvalue⟩ := Text.exists_denotes hdigits
  refine ⟨value, hvalue, ?_⟩
  rw [integer?_eq hbase hvalue]
  split_ifs <;> rfl

/-! ### Floating-point numbers -/

theorem exists_decimal? (h : ∀ c ∈ cs, Text.isDigit c) (hne : cs ≠ []) : ∃ n, decimal? cs = some n :=
  ⟨_, if_pos ⟨hne, List.all_eq_true.2 h⟩⟩

/-- An exponent is a number, whether it has a sign or not. -/
theorem exists_exponent? {sign power : List Char}
    (hsign : sign = [] ∨ ∃ s, Numeral.isSign s ∧ sign = [s]) (h : ∀ c ∈ power, Text.isDigit c)
    (hne : power ≠ []) : ∃ n, exponent? (sign ++ power) = some n := by
  obtain ⟨n, hn⟩ := exists_decimal? h hne
  obtain rfl | ⟨s, hs, rfl⟩ := hsign
  · refine ⟨n, ?_⟩
    have hplain : exponent? power = (decimal? power).map Int.ofNat := by
      unfold exponent?
      split
      · exact absurd (h '+' List.mem_cons_self) (by decide)
      · exact absurd (h '-' List.mem_cons_self) (by decide)
      · rfl
    rw [List.nil_append, hplain, hn]
    rfl
  · simp only [Numeral.isSign, Bool.or_eq_true, beq_iff_eq] at hs
    obtain rfl | rfl := hs
    · exact ⟨n, congrArg (Option.map Int.ofNat) hn⟩
    · exact ⟨-n, congrArg (Option.map fun size => -Int.ofNat size) hn⟩

/-- A number with digits in front of its exponent, and digits in the exponent, has a value. -/
theorem exists_float? {whole point fraction power : List Char}
    (hdigits : ∀ c ∈ whole ++ fraction, Text.isDigit c) (hne : whole ++ fraction ≠ [])
    (hpoint : point = [] ∨ point = ['.'])
    (hpower : power = [] ∨ ∃ mark rest n, NumberScan.isExponentMark mark ∧
      exponent? rest = some n ∧ power = mark :: rest) :
    ∃ x, float? (whole ++ point ++ fraction ++ power) = some x := by
  have hexcludes (c) (hc : c ∈ whole ++ fraction) := Numeral.isDigitOrSeparator_excludes
    (Numeral.isDigitOrSeparator_of_isDigit (hdigits c hc))
  have hpoint' : ∀ c ∈ point, c = '.' := by
    obtain rfl | rfl := hpoint
    · exact nofun
    · exact fun c => List.mem_singleton.1
  have hmantissa : ∀ c ∈ whole ++ point ++ fraction, !NumberScan.isExponentMark c := by
    intro c hc
    rw [Bool.not_eq_true']
    simp only [List.mem_append] at hc
    obtain (hwhole | hc) | hfraction := hc
    · exact (hexcludes c (List.mem_append_left _ hwhole)).2.1
    · obtain rfl := hpoint' c hc
      rfl
    · exact (hexcludes c (List.mem_append_right _ hfraction)).2.1
  have htake : (whole ++ point ++ fraction ++ power).takeWhile (!NumberScan.isExponentMark ·) =
      whole ++ point ++ fraction := by
    rw [List.takeWhile_append_of_pos hmantissa]
    obtain rfl | ⟨mark, rest, n, hmark, -, rfl⟩ := hpower
    · exact List.append_nil _
    · rw [List.takeWhile_cons_of_neg (by simp [hmark]), List.append_nil]
  have hdrop : (whole ++ point ++ fraction ++ power).dropWhile (!NumberScan.isExponentMark ·) =
      power := by
    rw [List.dropWhile_append_of_pos hmantissa]
    obtain rfl | ⟨mark, rest, n, hmark, -, rfl⟩ := hpower
    · rfl
    · exact List.dropWhile_cons_of_neg (by simp [hmark])
  have herase : (whole ++ point ++ fraction).erase '.' = whole ++ fraction := by
    have hnotMem : '.' ∉ whole ++ fraction := fun h => by simpa using (hexcludes _ h).1
    obtain rfl | rfl := hpoint
    · rw [List.append_nil, List.erase_of_not_mem hnotMem]
    · rw [List.append_assoc, List.erase_append_right _ fun h => hnotMem (List.mem_append_left _ h)]
      rfl
  obtain ⟨n, hn⟩ := exists_decimal? hdigits hne
  simp only [float?, htake, hdrop, herase, hn]
  obtain rfl | ⟨mark, rest, m, -, hrest, rfl⟩ := hpower
  · exact ⟨_, rfl⟩
  · simp [hrest]

/-! ### Literals of each kind -/

/-- The digits of a base are those the scanner takes for them. -/
theorem exists_isDigitOf_base {radix : Radix} (h : radix.accepts c) :
    ∃ digit, Text.IsDigitOf radix.base c digit := by
  cases radix with
  | hexadecimal =>
    obtain ⟨digit, hdigit⟩ := Option.isSome_iff_exists.1 h
    exact ⟨digit, hdigit, (Text.hexValue?_bounds hdigit).1⟩
  | binary =>
    simp only [Radix.accepts, Bool.or_eq_true, beq_iff_eq] at h
    obtain rfl | rfl := h
    · exact ⟨0, by decide, by decide⟩
    · exact ⟨1, by decide, by decide⟩

/-- Without separators, only digits are left. -/
theorem isDigit_of_mem_filter (h : ∀ c ∈ cs, NumberScan.isDigitOrSeparator c) :
    ∀ c ∈ cs.filter (· != '_'), Text.isDigit c := by
  intro c hc
  obtain ⟨hmem, hne⟩ := List.mem_filter.1 hc
  have hdigit := h c hmem
  rw [NumberScan.isDigitOrSeparator, Bool.or_eq_true, beq_iff_eq] at hdigit
  exact hdigit.resolve_right (bne_iff_ne.1 hne)

theorem mem_filter_of_isDigit (hc : c ∈ cs) (h : Text.isDigit c) : c ∈ cs.filter (· != '_') := by
  refine List.mem_filter.2 ⟨hc, bne_iff_ne.2 ?_⟩
  rintro rfl
  exact absurd h (by decide)

theorem integer_digits (h : cs ∈ Numeral.literals .integer) :
    ∀ c ∈ cs, (∃ digit, Text.IsDigitOf 10 c digit) ∨ c = '_' := by
  intro c hc
  have hdigit := Numeral.isDigitOrSeparator_of_mem_digits h c hc
  rw [NumberScan.isDigitOrSeparator, Bool.or_eq_true, beq_iff_eq] at hdigit
  exact hdigit.imp_left Text.exists_isDigitOf_ten

theorem radix_digits {radix : Radix} (h : cs ∈ Numeral.literals (.radixInteger radix)) :
    ∀ c ∈ cs.drop 2, (∃ digit, Text.IsDigitOf radix.base c digit) ∨ c = '_' := by
  simp only [Numeral.literals, Numeral.separator, Numeral.oneOf_add, mul_assoc] at h
  obtain ⟨zero, rest, -, hrest, rfl⟩ := Numeral.mem_oneOf_mul.1 h
  obtain ⟨mark, rest, -, hbehind, rfl⟩ := Numeral.mem_oneOf_mul.1 hrest
  obtain ⟨separators, hseparators, rest, hdigits, rfl⟩ := Language.mem_mul.1 hbehind
  obtain ⟨first, more, hfirst, hmore, rfl⟩ := Numeral.mem_oneOf_mul.1 hdigits
  intro c hc
  change c ∈ separators ++ first :: more at hc
  rw [List.mem_append, List.mem_cons] at hc
  obtain hc | rfl | hc := hc
  · exact .inr (beq_iff_eq.1 (Numeral.mem_kstar_oneOf.1 hseparators c hc))
  · exact .inl (exists_isDigitOf_base hfirst)
  · have hdigit := Numeral.mem_kstar_oneOf.1 hmore c hc
    rw [Bool.or_eq_true, beq_iff_eq] at hdigit
    exact hdigit.imp_left exists_isDigitOf_base

/-- A floating-point literal is made of digits, at most one point among them, and maybe an exponent. -/
theorem float_parts (h : cs ∈ Numeral.literals .float) : ∃ whole point fraction power,
    (∀ c ∈ whole ++ fraction, NumberScan.isDigitOrSeparator c) ∧
    (∃ c ∈ whole ++ fraction, Text.isDigit c) ∧ (point = [] ∨ point = ['.']) ∧
    power ∈ 1 + Numeral.exponent ∧ cs = whole ++ point ++ fraction ++ power := by
  have hfirst {ds : List Char} (hds : ds ∈ Numeral.digits) : ∃ c ∈ ds, Text.isDigit c := by
    obtain ⟨c, rest, hc, -, rfl⟩ := Numeral.mem_digits.1 hds
    exact ⟨c, List.mem_cons_self, hc⟩
  simp only [Numeral.literals, mul_assoc, Language.mem_add] at h
  rcases h with h | h
  · obtain ⟨whole, hwhole, rest, hrest, rfl⟩ := Language.mem_mul.1 h
    obtain ⟨c, hc, hdigit⟩ := hfirst hwhole
    have hdigits := Numeral.isDigitOrSeparator_of_mem_digits hwhole
    rcases hrest with hrest | hpower
    · obtain ⟨dot, behind, hdot, hbehind, rfl⟩ := Numeral.mem_oneOf_mul.1 hrest
      obtain ⟨fraction, hfraction, power, hpower, rfl⟩ := Language.mem_mul.1 hbehind
      obtain rfl := beq_iff_eq.1 hdot
      rw [Numeral.digit_add_separator, Numeral.mem_kstar_oneOf] at hfraction
      exact ⟨whole, ['.'], fraction, power, List.forall_mem_append.2 ⟨hdigits, hfraction⟩,
        ⟨c, List.mem_append_left _ hc, hdigit⟩, .inr rfl, hpower, by simp⟩
    · exact ⟨whole, [], [], rest, by simpa using hdigits, ⟨c, by simpa using hc, hdigit⟩, .inl rfl,
        Numeral.mem_optional.2 (.inr hpower), by simp⟩
  · obtain ⟨dot, behind, hdot, hbehind, rfl⟩ := Numeral.mem_oneOf_mul.1 h
    obtain ⟨fraction, hfraction, power, hpower, rfl⟩ := Language.mem_mul.1 hbehind
    obtain rfl := beq_iff_eq.1 hdot
    exact ⟨[], ['.'], fraction, power, Numeral.isDigitOrSeparator_of_mem_digits hfraction,
      hfirst hfraction, .inr rfl, hpower, rfl⟩

theorem exponent_filter {power : List Char} (h : power ∈ Numeral.exponent) :
    ∃ mark rest n, NumberScan.isExponentMark mark ∧ exponent? rest = some n ∧
      power.filter (· != '_') = mark :: rest := by
  obtain ⟨mark, sign, ds, hmark, hsign, hds, rfl⟩ := Numeral.mem_exponent.1 h
  obtain ⟨first, more, hfirst, -, hcons⟩ := Numeral.mem_digits.1 hds
  have hmem := mem_filter_of_isDigit (hcons ▸ List.mem_cons_self : first ∈ ds) hfirst
  obtain ⟨n, hn⟩ := exists_exponent? hsign
    (isDigit_of_mem_filter (Numeral.isDigitOrSeparator_of_mem_digits hds)) (List.ne_nil_of_mem hmem)
  refine ⟨mark, _, n, hmark, hn, ?_⟩
  have hmark' : (mark != '_') = true := by
    rw [bne_iff_ne]
    rintro rfl
    exact absurd hmark (by decide)
  have hsign' : sign.filter (· != '_') = sign := by
    obtain rfl | ⟨s, hs, rfl⟩ := hsign
    · rfl
    · refine List.filter_eq_self.2 fun c hc => ?_
      obtain rfl := List.mem_singleton.1 hc
      rw [bne_iff_ne]
      rintro rfl
      exact absurd hs (by decide)
  rw [List.filter_cons, if_pos hmark', List.filter_append, hsign']

/-- A floating-point literal has a value. -/
theorem exists_float?_of_mem (h : cs ∈ Numeral.literals .float) :
    ∃ x, float? (cs.filter (· != '_')) = some x := by
  obtain ⟨whole, point, fraction, power, hdigits, ⟨c, hc, hdigit⟩, hpoint, hpower, rfl⟩ :=
    float_parts h
  have hpoint' : point.filter (· != '_') = point := by
    obtain rfl | rfl := hpoint <;> rfl
  have hmem := mem_filter_of_isDigit hc hdigit
  simp only [List.filter_append, hpoint'] at hmem ⊢
  refine exists_float? ?_ (List.ne_nil_of_mem hmem) hpoint ?_
  · rw [← List.filter_append]
    exact isDigit_of_mem_filter hdigits
  · obtain rfl | hpower := Numeral.mem_optional.1 hpower
    · exact .inl rfl
    · exact .inr (exponent_filter hpower)

section Kinds

variable {text : String}

theorem ofText_integer
    (h : (NumberScan.start.feedAll text.toList).bind NumberScan.kind? = some .integer) :
    ∃ value, Text.Denotes 10 (text.toList.filter (· != '_')) value ∧
      ofText text = if value ≤ maxInteger then .ok (.integer value)
        else .error (.numberOutOfRange text) := by
  simp only [ofText, h]
  exact exists_orError_integer? (by decide) _ (integer_digits (Numeral.mem_literals_iff.2 h))

theorem ofText_radixInteger {radix : Radix}
    (h : (NumberScan.start.feedAll text.toList).bind NumberScan.kind? = some (.radixInteger radix)) :
    ∃ value, Text.Denotes radix.base ((text.toList.drop 2).filter (· != '_')) value ∧
      ofText text = if value ≤ maxInteger then .ok (.integer value)
        else .error (.numberOutOfRange text) := by
  have hbase : 0 < radix.base := by cases radix <;> decide
  simp only [ofText, h]
  exact exists_orError_integer? hbase _ (radix_digits (Numeral.mem_literals_iff.2 h))

theorem ofText_float
    (h : (NumberScan.start.feedAll text.toList).bind NumberScan.kind? = some .float) :
    ∃ value, ofText text = .ok (.float value) := by
  obtain ⟨value, hvalue⟩ := exists_float?_of_mem (Numeral.mem_literals_iff.2 h)
  simp only [ofText, h, hvalue]
  exact ⟨value, rfl⟩

theorem ofText_eq_malformed_iff : ofText text = .error (.malformedNumber text) ↔
    (NumberScan.start.feedAll text.toList).bind NumberScan.kind? = none := by
  have hinteger (value : Nat) : (if value ≤ maxInteger then .ok (.integer value)
      else .error (.numberOutOfRange text)) ≠
        (.error (.malformedNumber text) : Except LiteralError NumberValue) := by
    split_ifs <;> nofun
  constructor
  · intro hmalformed
    cases h : (NumberScan.start.feedAll text.toList).bind NumberScan.kind? with
    | none => rfl
    | some kind =>
      exfalso
      cases kind with
      | integer =>
        obtain ⟨value, -, hvalue⟩ := ofText_integer h
        exact hinteger value (hvalue.symm.trans hmalformed)
      | radixInteger radix =>
        obtain ⟨value, -, hvalue⟩ := ofText_radixInteger h
        exact hinteger value (hvalue.symm.trans hmalformed)
      | float =>
        obtain ⟨value, hvalue⟩ := ofText_float h
        cases hvalue.symm.trans hmalformed
  · intro h
    simp only [ofText, h]

end Kinds

/-- A text is malformed exactly if the scanner does not take it for a literal. An integer is the number
its digits denote if that is not too large, and out of range otherwise. A floating-point literal
always has a value. -/
theorem ofText_of_kind (text : String) :
    (ofText text = .error (.malformedNumber text) ↔
      (NumberScan.start.feedAll text.toList).bind NumberScan.kind? = none) ∧
    ((NumberScan.start.feedAll text.toList).bind NumberScan.kind? = some .integer →
      ∃ value, Text.Denotes 10 (text.toList.filter (· != '_')) value ∧
        ofText text = if value ≤ maxInteger then .ok (.integer value)
          else .error (.numberOutOfRange text)) ∧
    (∀ radix,
      (NumberScan.start.feedAll text.toList).bind NumberScan.kind? = some (.radixInteger radix) →
      ∃ value, Text.Denotes radix.base ((text.toList.drop 2).filter (· != '_')) value ∧
        ofText text = if value ≤ maxInteger then .ok (.integer value)
          else .error (.numberOutOfRange text)) ∧
    ((NumberScan.start.feedAll text.toList).bind NumberScan.kind? = some .float →
      ∃ value, ofText text = .ok (.float value)) :=
  ⟨ofText_eq_malformed_iff, ofText_integer, fun _ => ofText_radixInteger, ofText_float⟩

/-- An integer one too large, a number in base sixteen, and a number with a fraction. -/
theorem ofText_of_kind_each :
    (∃ value, Text.Denotes 10 ("9223372036854775808".toList.filter (· != '_')) value ∧
      ofText "9223372036854775808" = if value ≤ maxInteger then .ok (.integer value)
        else .error (.numberOutOfRange "9223372036854775808")) ∧
    (∃ value, Text.Denotes 16 (("0x_7F".toList.drop 2).filter (· != '_')) value ∧
      ofText "0x_7F" = if value ≤ maxInteger then .ok (.integer value)
        else .error (.numberOutOfRange "0x_7F")) ∧
    (∃ value, ofText "1_0.5e-3" = .ok (.float value)) :=
  ⟨(ofText_of_kind "9223372036854775808").2.1 (by decide),
    (ofText_of_kind "0x_7F").2.2.1 .hexadecimal (by decide),
    (ofText_of_kind "1_0.5e-3").2.2.2 (by decide)⟩

end NumberValue

end ScriptTree
