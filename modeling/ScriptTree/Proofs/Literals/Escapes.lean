import Mathlib
import ScriptTree.Literal.StringLiteral
import ScriptTree.Proofs.Encoding
import ScriptTree.Proofs.Literals.Digits
import ScriptTree.Source.Difference

/-!
# The escapes of a string literal

A body is a concatenation of pieces, each of which stands for one character or, where a backslash
joins two lines, for none. Resolving the escapes of a body is taking it apart into pieces: it succeeds
exactly if the body is a concatenation of pieces, and gives what they denote. Besides the escapes of
the grammar, a group of digits is taken that has a plus sign in place of its first digit.
-/

namespace ScriptTree.StringLiteral

/-! ### Pieces -/

/-- The letters that have a meaning behind a backslash, each with the character it denotes. -/
def letters : List (Char × Char) :=
  [('n', '\n'), ('t', '\t'), ('r', '\r'), ('a', '\x07'), ('b', '\x08'), ('f', '\x0c'),
    ('v', '\x0b'), ('"', '"'), ('\'', '\''), ('\\', '\\')]

/-- The ways in which a line ends. -/
def lineBreaks : List (List Char) :=
  [['\n'], ['\r'], ['\r', '\n']]

/-- The letters in front of the number of a character, with how many digits the number has. -/
def widths : List (Char × Nat) :=
  [('u', 4), ('U', 6)]

/-- How a piece of a body is written, and what it denotes. -/
inductive Piece : List Char → List Char → Prop where
  | plain {c : Char} (hc : c ≠ '\\') : Piece [c] [c]
  | letter {e c : Char} (he : (e, c) ∈ letters) : Piece ['\\', e] [c]
  | joined {lineBreak : List Char} (h : lineBreak ∈ lineBreaks) : Piece ('\\' :: lineBreak) []
  | code {e c : Char} {width : Nat} {digits : List Char} (he : (e, width) ∈ widths)
      (hwidth : digits.length = width) (hdigits : Text.Denotes 16 digits c.toNat) :
      Piece ('\\' :: e :: digits) [c]

/-- A number of a character with a sign in place of its first digit. -/
inductive SignedCode : List Char → List Char → Prop where
  | mk {e c : Char} {width : Nat} {digits : List Char} (he : (e, width) ∈ widths)
      (hwidth : digits.length + 1 = width) (hdigits : Text.Denotes 16 digits c.toNat) :
      SignedCode ('\\' :: e :: '+' :: digits) [c]

/-- The pieces that are taken. -/
def Taken (piece : List Char × List Char) : Prop :=
  Piece piece.1 piece.2 ∨ SignedCode piece.1 piece.2

/-- Two pieces that follow each other do not part a carriage return behind a backslash from its line
feed. -/
def KeepsBreak (piece next : List Char × List Char) : Prop :=
  ¬ (piece.1 = ['\\', '\r'] ∧ next.1 = ['\n'])

/-- The pieces make up a body, and together denote a value. -/
structure MakeUp (pieces : List (List Char × List Char)) (body value : List Char) : Prop where
  taken : ∀ piece ∈ pieces, Taken piece
  keepsBreaks : pieces.IsChain KeepsBreak
  body_eq : body = pieces.flatMap Prod.fst
  value_eq : value = pieces.flatMap Prod.snd

/-! ### Numbers of characters -/

variable {c e : Char} {width : Nat} {cs rest digits body value : List Char}

/-- Reading digits from the front gives the number they denote. -/
theorem foldlM_eq_some_iff {n : Nat} :
    cs.foldlM (fun value c => (Text.hexValue? c).map (value * 16 + ·)) 0 = some n ↔
      Text.Denotes 16 cs n := by
  induction cs using List.reverseRecOn generalizing n with
  | nil => simp [Text.denotes_nil, eq_comm]
  | append_singleton cs c ih =>
    simp only [List.foldlM_append, List.foldlM_cons, List.foldlM_nil, bind_pure,
      Option.bind_eq_bind, Option.bind_eq_some_iff, Option.map_eq_some_iff, ih,
      Text.denotes_append_singleton, Text.IsDigitOf]
    constructor
    · rintro ⟨front, hfront, digit, hdigit, rfl⟩
      exact ⟨front, digit, hfront, ⟨hdigit, (Text.hexValue?_bounds hdigit).1⟩, rfl⟩
    · rintro ⟨front, digit, hfront, ⟨hdigit, -⟩, rfl⟩
      exact ⟨front, hfront, digit, hdigit, rfl⟩

/-- The character of a number is the one that has it. -/
theorem charOfCode?_eq_some_iff {n : Nat} : charOfCode? n = some c ↔ n = c.toNat := by
  have hvalid : c.toNat.isValidChar := c.valid
  unfold charOfCode?
  constructor
  · intro h
    split_ifs at h with hn
    obtain rfl := Option.some.inj h
    exact (Text.Utf8.toNat_charOfNat hn).symm
  · rintro rfl
    rw [if_pos hvalid, Char.ofNat_toNat]

/-- A sign is no digit. -/
theorem not_denotes_sign {n : Nat} : ¬ Text.Denotes 16 ('+' :: cs) n := by
  intro h
  obtain ⟨digit, hdigit, -⟩ := h.isDigitOf List.mem_cons_self
  have hsign : Text.hexValue? '+' = none := by decide
  rw [hsign] at hdigit
  cases hdigit

/-- Digits may have a sign in front of them. -/
theorem hexValue?_eq_some_iff {n : Nat} : hexValue? cs = some n ↔
    (cs ≠ [] ∧ Text.Denotes 16 cs n) ∨
      ∃ digits, cs = '+' :: digits ∧ digits ≠ [] ∧ Text.Denotes 16 digits n := by
  have hplain (ds : List Char) :
      (if ds.isEmpty then none
        else ds.foldlM (fun value c => (Text.hexValue? c).map (value * 16 + ·)) 0) = some n ↔
        ds ≠ [] ∧ Text.Denotes 16 ds n := by
    rw [← foldlM_eq_some_iff]
    cases ds <;> simp
  unfold hexValue?
  rw [hplain]
  cases cs with
  | nil => simp
  | cons c cs =>
    by_cases hc : c = '+'
    · subst hc
      simp [not_denotes_sign]
    · simp [hc]

/-- What denotes a number takes one byte for each digit. -/
theorem byteLength_of_denotes {n : Nat} (h : Text.Denotes 16 cs n) :
    byteLength cs = cs.length := by
  have hdigit (c) (hc : c ∈ cs) : c.toNat < 128 := by
    obtain ⟨digit, hdigit, -⟩ := h.isDigitOf hc
    exact (Text.hexValue?_bounds hdigit).2
  clear h
  induction cs with
  | nil => rfl
  | cons c cs ih =>
    have hsize : c.utf8Size = 1 := Char.utf8Size_eq_one_iff.2 <|
      UInt32.le_iff_toNat_le.2 (Nat.le_of_lt_succ (hdigit c List.mem_cons_self))
    rw [byteLength, List.length_cons, ih fun d hd => hdigit d (List.mem_cons_of_mem _ hd), hsize,
      Nat.add_comm]

/-- The character of a group of digits: as many as are wanted, or one fewer and a sign. -/
theorem charOfDigits?_eq_some_iff (hwidth : 1 < width) : charOfDigits? width cs = some c ↔
    (cs.length = width ∧ Text.Denotes 16 cs c.toNat) ∨
      ∃ digits, cs = '+' :: digits ∧ digits.length + 1 = width ∧
        Text.Denotes 16 digits c.toNat := by
  have hcode : (hexValue? cs).bind charOfCode? = some c ↔ hexValue? cs = some c.toNat := by
    simp only [Option.bind_eq_some_iff, charOfCode?_eq_some_iff, exists_eq_right]
  have hsign : ('+' : Char).utf8Size = 1 := rfl
  unfold charOfDigits?
  rw [← byteLength_toList, String.toList_ofList, Option.ite_none_right_eq_some, hcode,
    hexValue?_eq_some_iff]
  constructor
  · rintro ⟨hbytes, ⟨-, hdigits⟩ | ⟨digits, rfl, -, hdigits⟩⟩
    · exact .inl ⟨byteLength_of_denotes hdigits ▸ hbytes, hdigits⟩
    · rw [byteLength, byteLength_of_denotes hdigits, hsign] at hbytes
      exact .inr ⟨digits, rfl, by omega, hdigits⟩
  · rintro (⟨hlength, hdigits⟩ | ⟨digits, rfl, hlength, hdigits⟩)
    · refine ⟨(byteLength_of_denotes hdigits).trans hlength, .inl ⟨?_, hdigits⟩⟩
      exact List.ne_nil_of_length_pos (by omega)
    · refine ⟨?_, .inr ⟨digits, rfl, List.ne_nil_of_length_pos (by omega), hdigits⟩⟩
      rw [byteLength, byteLength_of_denotes hdigits, hsign]
      omega

/-! ### Reading a piece -/

theorem simpleEscape?_eq_some_iff : simpleEscape? e = some c ↔ (e, c) ∈ letters := by
  unfold simpleEscape? letters
  split <;> simp_all [eq_comm]

theorem codeWidth?_eq_some_iff : codeWidth? e = some width ↔ (e, width) ∈ widths := by
  unfold codeWidth? widths
  split <;> simp_all [eq_comm]

theorem one_lt_of_mem_widths (he : (e, width) ∈ widths) : 1 < width := by
  simp only [widths, List.mem_cons, Prod.mk.injEq, List.not_mem_nil, or_false] at he
  omega

/-- Neither a letter with a meaning nor one in front of a number breaks a line. -/
theorem not_lineBreak_of_escape (h : (simpleEscape? e).isSome ∨ (codeWidth? e).isSome) :
    e ≠ '\n' ∧ e ≠ '\r' := by
  constructor <;> (rintro rfl; revert h; decide)

@[simp]
theorem unescapeChars_nil : unescapeChars [] = .ok [] := by
  unfold unescapeChars
  rfl

theorem unescapeChars_plain (hc : c ≠ '\\') :
    unescapeChars (c :: rest) = (unescapeChars rest).map (c :: ·) := by
  rw [unescapeChars.eq_def]
  exact if_pos hc

theorem unescapeChars_letter (he : (e, c) ∈ letters) :
    unescapeChars ('\\' :: e :: rest) = (unescapeChars rest).map (c :: ·) := by
  have hsimple := simpleEscape?_eq_some_iff.2 he
  obtain ⟨hfeed, hreturn⟩ := not_lineBreak_of_escape (.inl (Option.isSome_of_eq_some hsimple))
  rw [unescapeChars, if_neg (not_not_intro rfl), hsimple]
  · rfl
  · exact hfeed
  · exact fun _ he _ => hreturn he
  · exact hreturn

theorem unescapeChars_lineFeed : unescapeChars ('\\' :: '\n' :: rest) = unescapeChars rest := by
  rw [unescapeChars, if_neg (not_not_intro rfl)]

theorem unescapeChars_returnLineFeed :
    unescapeChars ('\\' :: '\r' :: '\n' :: rest) = unescapeChars rest := by
  rw [unescapeChars, if_neg (not_not_intro rfl)]

theorem unescapeChars_return (hrest : rest.head? ≠ some '\n') :
    unescapeChars ('\\' :: '\r' :: rest) = unescapeChars rest := by
  rw [unescapeChars, if_neg (not_not_intro rfl)]
  rintro more rfl
  exact hrest rfl

theorem unescapeChars_code (he : (e, width) ∈ widths)
    (hdigits : charOfDigits? width (rest.take width) = some c) :
    unescapeChars ('\\' :: e :: rest) = (unescapeChars (rest.drop width)).map (c :: ·) := by
  have hwidth := codeWidth?_eq_some_iff.2 he
  have hsimple : simpleEscape? e = none := by
    revert he
    simp only [widths, List.mem_cons, Prod.mk.injEq]
    rintro (⟨rfl, -⟩ | ⟨rfl, -⟩ | h)
    · rfl
    · rfl
    · cases h
  obtain ⟨hfeed, hreturn⟩ := not_lineBreak_of_escape (.inr (Option.isSome_of_eq_some hwidth))
  rw [unescapeChars, if_neg (not_not_intro rfl), hsimple, hwidth]
  · simp only [hdigits]
    rfl
  · exact hfeed
  · exact fun _ he _ => hreturn he
  · exact hreturn

/-- Resolving escapes takes off one piece after the other. -/
theorem unescapeChars_append {piece : List Char × List Char} (hpiece : Taken piece)
    (hbreak : piece.1 = ['\\', '\r'] → rest.head? ≠ some '\n') :
    unescapeChars (piece.1 ++ rest) = (unescapeChars rest).map (piece.2 ++ ·) := by
  have hcode {e c : Char} {width : Nat} {digits : List Char} (he : (e, width) ∈ widths)
      (hlength : digits.length = width) (hdigits : charOfDigits? width digits = some c) :
      unescapeChars ('\\' :: e :: digits ++ rest) = (unescapeChars rest).map (c :: ·) := by
    have htake : (digits ++ rest).take width = digits := List.take_left' hlength
    have hdrop : (digits ++ rest).drop width = rest := List.drop_left' hlength
    rw [← htake] at hdigits
    have hread := unescapeChars_code he hdigits
    rwa [hdrop] at hread
  obtain ⟨written, meant⟩ := piece
  rcases hpiece with hpiece | hpiece
  · cases hpiece with
    | plain hc => exact unescapeChars_plain hc
    | letter he => exact unescapeChars_letter he
    | joined h =>
      have hnone : (unescapeChars rest).map ([] ++ ·) = unescapeChars rest := by
        cases unescapeChars rest <;> rfl
      rw [hnone]
      simp only [lineBreaks, List.mem_cons, List.not_mem_nil, or_false] at h
      rcases h with rfl | rfl | rfl
      · exact unescapeChars_lineFeed
      · exact unescapeChars_return (hbreak rfl)
      · exact unescapeChars_returnLineFeed
    | code he hwidth hdigits =>
      exact hcode he hwidth ((charOfDigits?_eq_some_iff (one_lt_of_mem_widths he)).2
        (.inl ⟨hwidth, hdigits⟩))
  · cases hpiece with
    | mk he hwidth hdigits =>
      exact hcode he hwidth ((charOfDigits?_eq_some_iff (one_lt_of_mem_widths he)).2
        (.inr ⟨_, rfl, hwidth, hdigits⟩))

/-! ### Taking a body apart -/

theorem makeUp_nil : MakeUp [] [] [] :=
  ⟨List.forall_mem_nil _, .nil, rfl, rfl⟩

/-- A piece is a character of its own, or begins with a backslash. -/
theorem Taken.cases_first {piece : List Char × List Char} (h : Taken piece) :
    (∃ c ≠ '\\', piece = ([c], [c])) ∨ ∃ more, piece.1 = '\\' :: more := by
  obtain ⟨written, meant⟩ := piece
  rcases h with h | h
  · cases h with
    | plain hc => exact .inl ⟨_, hc, rfl⟩
    | letter => exact .inr ⟨_, rfl⟩
    | joined => exact .inr ⟨_, rfl⟩
    | code => exact .inr ⟨_, rfl⟩
  · cases h with
    | mk => exact .inr ⟨_, rfl⟩

/-- What pieces make up begins with a line feed if the first of them is one. -/
theorem head?_flatMap_eq_lineFeed_iff {pieces : List (List Char × List Char)}
    (h : ∀ piece ∈ pieces, Taken piece) :
    (pieces.flatMap Prod.fst).head? = some '\n' ↔ ∃ next ∈ pieces.head?, next.1 = ['\n'] := by
  cases pieces with
  | nil => simp
  | cons piece pieces =>
    rw [List.flatMap_cons]
    obtain ⟨c, -, rfl⟩ | ⟨more, hmore⟩ := (h piece List.mem_cons_self).cases_first
    · simp
    · simp [hmore]

/-- A carriage return behind a backslash is not parted from its line feed if no line feed follows. -/
theorem keepsBreak_iff {piece : List Char × List Char} {pieces : List (List Char × List Char)}
    (h : ∀ piece ∈ pieces, Taken piece) :
    (∀ next ∈ pieces.head?, KeepsBreak piece next) ↔
      (piece.1 = ['\\', '\r'] → (pieces.flatMap Prod.fst).head? ≠ some '\n') := by
  rw [Ne, head?_flatMap_eq_lineFeed_iff h]
  constructor
  · rintro hkeep hreturn ⟨next, hnext, hfeed⟩
    exact hkeep next hnext ⟨hreturn, hfeed⟩
  · rintro hbreak next hnext ⟨hreturn, hfeed⟩
    exact hbreak hreturn ⟨next, hnext, hfeed⟩

/-- One more piece in front. -/
theorem MakeUp.cons {pieces : List (List Char × List Char)} {written meant : List Char}
    (h : MakeUp pieces rest value) (hpiece : Taken (written, meant))
    (hbreak : written = ['\\', '\r'] → rest.head? ≠ some '\n') :
    MakeUp ((written, meant) :: pieces) (written ++ rest) (meant ++ value) := by
  obtain ⟨htaken, hkeeps, rfl, rfl⟩ := h
  exact ⟨List.forall_mem_cons.2 ⟨hpiece, htaken⟩,
    List.isChain_cons.2 ⟨(keepsBreak_iff htaken).2 hbreak, hkeeps⟩, rfl, rfl⟩

/-- The value of a body is what its pieces denote. -/
theorem unescapeChars_of_makeUp {pieces : List (List Char × List Char)}
    (h : MakeUp pieces body value) : unescapeChars body = .ok value := by
  obtain ⟨htaken, hkeeps, rfl, rfl⟩ := h
  induction pieces with
  | nil => exact unescapeChars_nil
  | cons piece pieces ih =>
    obtain ⟨hpiece, htaken⟩ := List.forall_mem_cons.1 htaken
    obtain ⟨hkeep, hkeeps⟩ := List.isChain_cons.1 hkeeps
    rw [List.flatMap_cons, List.flatMap_cons,
      unescapeChars_append hpiece ((keepsBreak_iff htaken).1 hkeep), ih htaken hkeeps]
    rfl

/-- A value begins with what was put in front of it. -/
theorem eq_ok_of_bind_pure {x : Except LiteralError (List Char)} {f : List Char → List Char}
    (h : (do return f (← x)) = .ok value) : ∃ more, x = .ok more ∧ value = f more := by
  cases x with
  | error error => cases h
  | ok more => exact ⟨more, rfl, (Except.ok.inj h).symm⟩

/-- A group of digits that has a character is a piece. -/
theorem taken_of_charOfDigits? (he : (e, width) ∈ widths)
    (h : charOfDigits? width digits = some c) : Taken ('\\' :: e :: digits, [c]) := by
  obtain ⟨hlength, hdigits⟩ | ⟨digits, rfl, hlength, hdigits⟩ :=
    (charOfDigits?_eq_some_iff (one_lt_of_mem_widths he)).1 h
  · exact .inl (.code he hlength hdigits)
  · exact .inr (.mk he hlength hdigits)

/-- A body that has a value is taken apart into pieces. -/
theorem exists_makeUp (h : unescapeChars body = .ok value) : ∃ pieces, MakeUp pieces body value := by
  fun_induction unescapeChars body generalizing value with
  | case1 =>
    cases h
    exact ⟨[], makeUp_nil⟩
  | case2 c rest hc ih =>
    obtain ⟨more, hmore, rfl⟩ := eq_ok_of_bind_pure h
    obtain ⟨pieces, hpieces⟩ := ih hmore
    have hpiece : Taken ([c], [c]) := .inl (.plain hc)
    exact ⟨_, hpieces.cons hpiece fun h => absurd h (by simp)⟩
  | case3 => cases h
  | case4 _ hc rest ih =>
    obtain rfl := not_not.1 hc
    obtain ⟨pieces, hpieces⟩ := ih h
    have hpiece : Taken (['\\', '\n'], []) := .inl (.joined (by decide))
    exact ⟨_, hpieces.cons hpiece fun h => absurd h (by decide)⟩
  | case5 _ hc rest ih =>
    obtain rfl := not_not.1 hc
    obtain ⟨pieces, hpieces⟩ := ih h
    have hpiece : Taken (['\\', '\r', '\n'], []) := .inl (.joined (by decide))
    exact ⟨_, hpieces.cons hpiece fun h => absurd h (by decide)⟩
  | case6 _ hc rest hrest ih =>
    obtain rfl := not_not.1 hc
    obtain ⟨pieces, hpieces⟩ := ih h
    have hpiece : Taken (['\\', '\r'], []) := .inl (.joined (by decide))
    refine ⟨_, hpieces.cons hpiece fun _ hhead => ?_⟩
    obtain ⟨more, rfl⟩ := List.head?_eq_some_iff.1 hhead
    exact hrest more rfl
  | case7 _ hc e rest _ _ hreturn c hsimple ih =>
    obtain rfl := not_not.1 hc
    obtain ⟨more, hmore, rfl⟩ := eq_ok_of_bind_pure h
    obtain ⟨pieces, hpieces⟩ := ih hmore
    have hpiece : Taken (['\\', e], [c]) := .inl (.letter (simpleEscape?_eq_some_iff.1 hsimple))
    exact ⟨_, hpieces.cons hpiece fun h => absurd h (by simpa using hreturn)⟩
  | case8 _ hc e rest _ _ hreturn width hwidth _ c hdigits ih =>
    obtain rfl := not_not.1 hc
    obtain ⟨more, hmore, rfl⟩ := eq_ok_of_bind_pure h
    obtain ⟨pieces, hpieces⟩ := ih hmore
    have hpiece := taken_of_charOfDigits? (codeWidth?_eq_some_iff.1 hwidth) hdigits
    have hmake := hpieces.cons hpiece fun h => (hreturn (List.cons.inj (List.cons.inj h).2).1).elim
    rw [List.cons_append, List.cons_append, List.take_append_drop] at hmake
    exact ⟨_, hmake⟩
  | case9 => cases h
  | case10 => cases h

/-- Wherever pieces are put together, a carriage return can be joined with a line feed behind it. -/
theorem exists_makeUp_of_taken {pieces : List (List Char × List Char)}
    (h : ∀ piece ∈ pieces, Taken piece) :
    ∃ pieces' value, MakeUp pieces' (pieces.flatMap Prod.fst) value := by
  induction pieces with
  | nil => exact ⟨[], [], makeUp_nil⟩
  | cons piece pieces ih =>
    obtain ⟨hpiece, h⟩ := List.forall_mem_cons.1 h
    obtain ⟨pieces', value, hmake⟩ := ih h
    obtain ⟨written, meant⟩ := piece
    rw [List.flatMap_cons]
    by_cases hbreak : written = ['\\', '\r'] → (pieces.flatMap Prod.fst).head? ≠ some '\n'
    · exact ⟨_, _, hmake.cons hpiece hbreak⟩
    -- The line feed is a piece of its own: it goes to the carriage return in front of it.
    obtain ⟨rfl, hhead⟩ := Classical.not_imp.1 hbreak
    have hbody := hmake.body_eq
    obtain ⟨next, hnext, hfeed⟩ :=
      (head?_flatMap_eq_lineFeed_iff hmake.taken).1 (hbody ▸ not_not.1 hhead)
    obtain ⟨rest, rfl⟩ := List.head?_eq_some_iff.1 hnext
    have hjoined : Taken (['\\', '\r', '\n'], []) := .inl (.joined (by decide))
    have hrest : MakeUp rest (rest.flatMap Prod.fst) (rest.flatMap Prod.snd) :=
      ⟨(List.forall_mem_cons.1 hmake.taken).2, (List.isChain_cons.1 hmake.keepsBreaks).2, rfl, rfl⟩
    have hmake := hrest.cons hjoined fun h => absurd h (by decide)
    rw [hbody, List.flatMap_cons, hfeed]
    exact ⟨_, _, hmake⟩

/-! ### The value of a body -/

/-- A body has a value exactly if it is a concatenation of pieces, and the value is what the pieces
denote, a carriage return behind a backslash going together with a line feed that follows it. -/
theorem unescape_eq_ok_iff (body : String) :
    (∀ value, unescape body = .ok value ↔ ∃ pieces, MakeUp pieces body.toList value.toList) ∧
    ((∃ value, unescape body = .ok value) ↔ ∃ pieces : List (List Char × List Char),
      (∀ piece ∈ pieces, Taken piece) ∧ body.toList = pieces.flatMap Prod.fst) := by
  have hchars (value : String) :
      unescape body = .ok value ↔ unescapeChars body.toList = .ok value.toList := by
    unfold unescape
    cases unescapeChars body.toList with
    | error error => exact ⟨nofun, nofun⟩
    | ok chars =>
      simp only [Except.map, Except.ok.injEq]
      exact ⟨fun h => h ▸ String.toList_ofList.symm, fun h => h ▸ String.ofList_toList⟩
  have hmake (value : String) :
      unescape body = .ok value ↔ ∃ pieces, MakeUp pieces body.toList value.toList :=
    (hchars value).trans ⟨exists_makeUp, fun ⟨_, h⟩ => unescapeChars_of_makeUp h⟩
  refine ⟨hmake, ?_, ?_⟩
  · rintro ⟨value, hvalue⟩
    obtain ⟨pieces, hpieces⟩ := (hmake value).1 hvalue
    exact ⟨pieces, hpieces.taken, hpieces.body_eq⟩
  · rintro ⟨pieces, htaken, hbody⟩
    obtain ⟨pieces', value, hpieces⟩ := exists_makeUp_of_taken htaken
    refine ⟨String.ofList value, (hmake _).2 ⟨pieces', ?_⟩⟩
    rwa [hbody, String.toList_ofList]

/-- A group of digits with a sign has a value, although it is no concatenation of the pieces of the
grammar. -/
theorem unescape_sign : unescape "\\u+123" = .ok "ģ" ∧
    ¬ ∃ pieces : List (List Char × List Char), (∀ piece ∈ pieces, Piece piece.1 piece.2) ∧
      "\\u+123".toList = pieces.flatMap Prod.fst := by
  refine ⟨by cbv, ?_⟩
  rintro ⟨pieces, hpieces, hbody⟩
  have htext : "\\u+123".toList = ['\\', 'u', '+', '1', '2', '3'] := by cbv
  rw [htext] at hbody
  cases pieces with
  | nil => cases hbody
  | cons piece pieces =>
    obtain ⟨written, meant⟩ := piece
    rw [List.flatMap_cons] at hbody
    cases hpieces _ List.mem_cons_self with
    | plain hc => exact hc (List.cons.inj hbody).1.symm
    | letter he =>
      obtain rfl := (List.cons.inj (List.cons.inj hbody).2).1
      simp [letters] at he
    | joined h =>
      simp only [lineBreaks, List.mem_cons, List.not_mem_nil, or_false] at h
      rcases h with rfl | rfl | rfl <;> exact absurd (List.cons.inj hbody).2 (by simp)
    | @code e c width digits he hwidth hdigits =>
      have hmore := (List.cons.inj (List.cons.inj hbody).2).2
      cases digits with
      | nil => exact absurd (one_lt_of_mem_widths he) (by simp [← hwidth])
      | cons d digits =>
        obtain rfl := (List.cons.inj hmore).1
        exact not_denotes_sign hdigits

end ScriptTree.StringLiteral
