import ScriptTree.ParseError

/-!
# Outcomes with a property

Putting tokens together is said to succeed with a property of the result, and reading a text is
allowed to fail in one way only, by nesting beyond a limit. Both notions pass through the
sequencing of steps.
-/

namespace ScriptTree

variable {α β ε : Type} {P : α → Prop} {Q : β → Prop}

/-- A check that an outcome passes is passed by its value. -/
theorem exists_of_any_toOption {x : Except ε α} {p : α → Bool} (h : x.toOption.any p = true) :
    ∃ a, x = .ok a ∧ p a = true := by
  cases x with
  | error e => cases h
  | ok a => exact ⟨a, rfl, h⟩

/-- Two steps lead to a value if the first leads to one from which the second leads there. -/
theorem bind_eq_ok_iff {x : Except ε α} {f : α → Except ε β} {b : β} :
    x >>= f = .ok b ↔ ∃ a, x = .ok a ∧ f a = .ok b := by
  cases x with
  | error e => exact ⟨nofun, nofun⟩
  | ok a => exact ⟨fun h => ⟨a, rfl, h⟩, fun ⟨_, ha, h⟩ => Except.ok.inj ha ▸ h⟩

/-- A result that was changed comes from a result. -/
theorem exists_of_map_eq_ok {x : Except ε α} {f : α → β} {b : β} (h : x.map f = .ok b) :
    ∃ a, x = .ok a ∧ f a = b := by
  cases x with
  | error e => cases h
  | ok a => exact ⟨a, rfl, Except.ok.inj h⟩

/-- A function of the value leaves an error as it is. -/
theorem eq_error_of_map_eq_error {x : Except ε α} {f : α → β} {e : ε} (h : x.map f = .error e) :
    x = .error e := by
  cases x with
  | error e' => rw [Except.error.inj h]
  | ok a => cases h

/-- The outcome is a value with the given property. -/
def Yields (x : Except ε α) (P : α → Prop) : Prop := ∃ a, x = .ok a ∧ P a

@[simp]
theorem yields_ok {a : α} : Yields (.ok a : Except ε α) P ↔ P a := by
  simp [Yields]

@[simp]
theorem yields_pure {a : α} : Yields (pure a : Except ε α) P ↔ P a := yields_ok

/-- A step that yields a value goes on with that value. -/
theorem Yields.bind {x : Except ε α} {f : α → Except ε β} (hx : Yields x P)
    (hf : ∀ a, P a → Yields (f a) Q) : Yields (x >>= f) Q := by
  obtain ⟨a, rfl, ha⟩ := hx
  exact hf a ha

/-- A property of the outcome may be weakened. -/
theorem Yields.mono {x : Except ε α} {R : α → Prop} (hx : Yields x P) (h : ∀ a, P a → R a) :
    Yields x R := by
  obtain ⟨a, rfl, ha⟩ := hx
  exact yields_ok.2 (h a ha)

/-- The value of an outcome has the property. -/
theorem Yields.of_ok {x : Except ε α} (hx : Yields x P) {a : α} (h : x = .ok a) : P a := by
  rwa [h, yields_ok] at hx

/-- A function of the outcome is yielded with what the function makes of the property. -/
theorem Yields.map {x : Except ε α} {f : α → β} (hx : Yields x P) (h : ∀ a, P a → Q (f a)) :
    Yields (x.map f) Q := by
  obtain ⟨a, rfl, ha⟩ := hx
  exact yields_ok.2 (h a ha)

/-- The outcome is a value with the given property, or else nesting went beyond a limit, which
takes that there are limits at all. -/
def Meets (limited : Prop) (x : Except ParseError α) (P : α → Prop) : Prop :=
  match x with
  | .ok a => P a
  | .error (.depth _) => limited
  | .error (.tree _) => False

variable {limited : Prop}

@[simp]
theorem meets_ok {a : α} : Meets limited (.ok a) P ↔ P a := Iff.rfl

@[simp]
theorem meets_pure {a : α} : Meets limited (pure a) P ↔ P a := Iff.rfl

/-- A step that meets a property goes on with its value, or stops at a limit. -/
theorem Meets.bind {x : Except ParseError α} {f : α → Except ParseError β}
    (hx : Meets limited x P) (hf : ∀ a, P a → Meets limited (f a) Q) :
    Meets limited (x >>= f) Q := by
  match x, hx with
  | .ok a, hx => exact hf a hx
  | .error (.depth _), hx => exact hx

/-- A property of the outcome may be weakened. -/
theorem Meets.mono {x : Except ParseError α} {R : α → Prop} (hx : Meets limited x P)
    (h : ∀ a, P a → R a) : Meets limited x R := by
  match x, hx with
  | .ok a, hx => exact h a hx
  | .error (.depth _), hx => exact hx

/-- Putting tokens together with success is a step of reading. -/
theorem Yields.meets {x : Except Misfit α} (hx : Yields x P) :
    Meets limited (ParseError.ofTree x) P := by
  obtain ⟨a, rfl, ha⟩ := hx
  exact ha

/-- A check of the depth fails only where there is a limit. -/
theorem meets_checkDepth {limit : DepthLimit} {max? : Option Nat} {depth : Nat}
    (h : max?.isSome → limited) :
    Meets limited (ParseError.ofDepth (checkDepth limit max? depth)) fun _ => True := by
  cases max? with
  | none => exact trivial
  | some max =>
    rw [checkDepth]
    split
    · exact h rfl
    · exact trivial

/-- A value that meets a property has it. -/
theorem Meets.of_ok {x : Except ParseError α} (hx : Meets limited x P) {a : α} (h : x = .ok a) :
    P a := by
  rwa [h] at hx

/-- What a property met without limits says: there is a value, and it has the property. -/
theorem Meets.yields {x : Except ParseError α} (hx : Meets False x P) : Yields x P := by
  match x, hx with
  | .ok a, hx => exact ⟨a, rfl, hx⟩

/-- If the outcome is a value, it has the given property. -/
def Promises (x : Except ε α) (P : α → Prop) : Prop := ∀ a, x = .ok a → P a

@[simp]
theorem promises_ok {a : α} : Promises (.ok a : Except ε α) P ↔ P a := by
  simp [Promises]

@[simp]
theorem promises_pure {a : α} : Promises (pure a : Except ε α) P ↔ P a := promises_ok

/-- A step that promises a value goes on with that value. -/
theorem Promises.bind {x : Except ε α} {f : α → Except ε β} (hx : Promises x P)
    (hf : ∀ a, P a → Promises (f a) Q) : Promises (x >>= f) Q := by
  cases x with
  | error e => exact nofun
  | ok a => exact hf a (hx a rfl)

/-- A property of the value may be weakened. -/
theorem Promises.mono {x : Except ε α} {R : α → Prop} (hx : Promises x P)
    (h : ∀ a, P a → R a) : Promises x R :=
  fun a ha => h a (hx a ha)

/-- A function of the value is promised with what the function makes of the property. -/
theorem Promises.map {x : Except ε α} {f : α → β} (hx : Promises x P) (h : ∀ a, P a → Q (f a)) :
    Promises (x.map f) Q := by
  cases x with
  | error e => exact nofun
  | ok a => exact promises_ok.2 (h a (hx a rfl))

/-- The value is promised under another kind of error as well. -/
theorem Promises.mapError {ε' : Type} {x : Except ε α} {f : ε → ε'} (hx : Promises x P) :
    Promises (x.mapError f) P := by
  cases x with
  | error e => exact nofun
  | ok a => exact promises_ok.2 (hx a rfl)

/-- What a step meets unless it stops at a limit, it promises. -/
theorem Meets.promises {limited : Prop} {x : Except ParseError α} (hx : Meets limited x P) :
    Promises x P :=
  fun _ ha => hx.of_ok ha

/-- Two properties may be promised together. -/
theorem Promises.and {x : Except ε α} {R : α → Prop} (hx : Promises x P) (hx' : Promises x R) :
    Promises x fun a => P a ∧ R a :=
  fun a ha => ⟨hx a ha, hx' a ha⟩

/-- Nothing is promised of a step but what holds of all values. -/
theorem promises_true (x : Except ε α) : Promises x fun _ => True :=
  fun _ _ => trivial

/-- Two outcomes that agree: both are values, which are related, or both are the same error. -/
def Agree (R : α → β → Prop) : Except ε α → Except ε β → Prop
  | .ok a, .ok b => R a b
  | .error e, .error e' => e' = e
  | _, _ => False

variable {γ δ : Type} {R : α → β → Prop} {S : γ → δ → Prop}

/-- An outcome agrees with itself. -/
theorem agree_self (x : Except ε α) : Agree (fun a b => b = a) x x := by
  cases x <;> rfl

/-- Steps that agree on related values go on in agreement. -/
theorem Agree.bind {x : Except ε α} {y : Except ε β} {f : α → Except ε γ} {g : β → Except ε δ}
    (hxy : Agree R x y) (hfg : ∀ a b, R a b → Agree S (f a) (g b)) :
    Agree S (x >>= f) (y >>= g) := by
  match x, y, hxy with
  | .ok a, .ok b, hab => exact hfg a b hab
  | .error e, .error _, rfl => exact rfl

/-- The relation between outcomes may be weakened. -/
theorem Agree.mono {x : Except ε α} {y : Except ε β} {R' : α → β → Prop} (hxy : Agree R x y)
    (h : ∀ a b, R a b → R' a b) : Agree R' x y := by
  match x, y, hxy with
  | .ok a, .ok b, hab => exact h a b hab
  | .error e, .error _, rfl => exact rfl

/-- A property that the first of two outcomes has if it is a value. -/
theorem Agree.and {x : Except ε α} {y : Except ε β} (hxy : Agree R x y)
    (hx : ∀ a, x = .ok a → P a) : Agree (fun a b => R a b ∧ P a) x y := by
  match x, y, hxy with
  | .ok a, .ok b, hab => exact ⟨hab, hx a rfl⟩
  | .error e, .error _, rfl => exact rfl

/-- Functions of outcomes that agree. -/
theorem Agree.map {x : Except ε α} {y : Except ε β} {f : α → γ} {g : β → δ}
    (hxy : Agree R x y) (h : ∀ a b, R a b → S (f a) (g b)) : Agree S (x.map f) (y.map g) := by
  match x, y, hxy with
  | .ok a, .ok b, hab => exact h a b hab
  | .error e, .error _, rfl => exact rfl

/-- Agreement is the same under another kind of error. -/
theorem Agree.mapError {ε' : Type} {x : Except ε α} {y : Except ε β} {f : ε → ε'}
    (hxy : Agree R x y) : Agree R (x.mapError f) (y.mapError f) := by
  match x, y, hxy with
  | .ok a, .ok b, hab => exact hab
  | .error e, .error _, rfl => exact rfl

/-- Outcomes that agree on the value of a function have equal outcomes of that function. -/
theorem Agree.map_eq {x : Except ε α} {y : Except ε β} {f : α → γ} {g : β → γ}
    (hxy : Agree (fun a b => g b = f a) x y) : y.map g = x.map f := by
  match x, y, hxy with
  | .ok a, .ok b, hab => exact congrArg Except.ok hab
  | .error e, .error _, rfl => exact rfl

end ScriptTree
