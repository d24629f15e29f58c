import Mathlib
import ScriptTree.Parse.Entry
import ScriptTree.Proofs.Outcome

/-!
# Limits on depth only refuse

Limits decide nothing but whether reading goes on. Under larger limits the same states are opened,
the same operands are folded and the same tree is built. Both nestings grow one by one, so that a
refusal comes exactly one beyond a maximum.
-/

namespace ScriptTree

/-- The maximum that is set for a limit. -/
def Config.max? (config : Config) : DepthLimit → Option Nat
  | .readingStack => config.maxReadingStack
  | .traceFrames => config.maxTraceFrames

/-- Settings that differ in the limits at most, each of which is at least as large. -/
structure Config.Relaxed (config config' : Config) : Prop where
  indentationSize : config'.indentationSize = config.indentationSize
  spacesAsIndentation : config'.spacesAsIndentation = config.spacesAsIndentation
  readBufferSize : config'.readBufferSize = config.readBufferSize
  max_le : ∀ limit, ∀ max' ∈ config'.max? limit, ∃ max ∈ config.max? limit, max ≤ max'

/-- A depth that a limit allows. -/
def Config.Allows (config : Config) (limit : DepthLimit) (depth : Nat) : Prop :=
  ∀ max ∈ config.max? limit, depth ≤ max

/-- A depth that one maximum allows is allowed by a larger one. -/
theorem Config.Relaxed.allows {config config' : Config} (h : config.Relaxed config')
    {limit : DepthLimit} {depth : Nat} (hallows : config.Allows limit depth) :
    config'.Allows limit depth := by
  intro max' hmax'
  obtain ⟨max, hmax, hle⟩ := h.max_le limit max' hmax'
  exact Nat.le_trans (hallows max hmax) hle

/-- A refusal that names a maximum and a depth of one more. -/
structure Config.Refuses (config : Config) (e : DepthOverflow) : Prop where
  max_eq : config.max? e.limit = some e.max
  depth_eq : e.depth = e.max + 1

/-- Reading under one limit and under a larger one: a value with the given property comes from
both, and a refusal comes just beyond the smaller limit. -/
def Lockstep {α : Type} (config : Config) (P : α → Prop) (x y : Except ParseError α) : Prop :=
  match x with
  | .ok a => y = .ok a ∧ P a
  | .error (.depth e) => config.Refuses e
  | .error (.tree _) => True

section Lockstep

variable {α β : Type} {config config' : Config} {P : α → Prop} {Q : β → Prop}

theorem lockstep_ok {a : α} (h : P a) : Lockstep config P (.ok a) (.ok a) :=
  ⟨rfl, h⟩

/-- Steps in lockstep go on in lockstep. -/
theorem Lockstep.bind {x y : Except ParseError α} {f g : α → Except ParseError β}
    (hxy : Lockstep config P x y) (hfg : ∀ a, P a → Lockstep config Q (f a) (g a)) :
    Lockstep config Q (x >>= f) (y >>= g) := by
  match x, hxy with
  | .ok a, ⟨hy, ha⟩ =>
    subst hy
    exact hfg a ha
  | .error (.depth e), he => exact he
  | .error (.tree e), _ => trivial

/-- What does not depend on limits. -/
theorem lockstep_ofTree (x : Except Misfit α) :
    Lockstep config (fun _ => True) (ParseError.ofTree x) (ParseError.ofTree x) := by
  cases x with
  | ok a => exact lockstep_ok trivial
  | error e => exact trivial

/-- Where the depth before was allowed, the next one is allowed by both limits, or it is refused
and lies just beyond the smaller one. -/
theorem lockstep_checkDepth (h : config.Relaxed config') (limit : DepthLimit) {depth : Nat}
    (hdepth : config.Allows limit depth) :
    Lockstep config (fun _ => config.Allows limit (depth + 1))
      (ParseError.ofDepth (checkDepth limit (config.max? limit) (depth + 1)))
      (ParseError.ofDepth (checkDepth limit (config'.max? limit) (depth + 1))) := by
  by_cases hnext : config.Allows limit (depth + 1)
  · rw [checkDepth_eq_ok_iff.2 hnext, checkDepth_eq_ok_iff.2 (h.allows hnext)]
    exact lockstep_ok hnext
  · cases hmax : config.max? limit with
    | none => exact absurd (fun max hmem => by simp [hmax] at hmem) hnext
    | some max =>
      have hle : depth ≤ max := hdepth max hmax
      have hlt : max < depth + 1 := Nat.lt_of_not_le fun hge => hnext fun max' hmem => by
        rw [hmax, Option.mem_some] at hmem
        omega
      rw [checkDepth, if_pos hlt]
      exact ⟨hmax, by dsimp only; omega⟩

end Lockstep

/-! ### Folding -/

namespace Climbed

variable {config config' : Config} {fuel : Nat}

/-- Operands are built in lockstep with this much fuel. -/
def ClimbLockstep (config config' : Config) (fuel : Nat) : Prop :=
  ∀ frames least pieces, config.Allows .traceFrames frames →
    Lockstep config (fun _ => True) (climb config.maxTraceFrames fuel frames least pieces)
      (climb config'.maxTraceFrames fuel frames least pieces)

/-- Single operands are built in lockstep with this much fuel. -/
def PrimaryLockstep (config config' : Config) (fuel : Nat) : Prop :=
  ∀ frames pieces, config.Allows .traceFrames frames →
    Lockstep config (fun _ => True) (primary config.maxTraceFrames fuel frames pieces)
      (primary config'.maxTraceFrames fuel frames pieces)

/-- Operands are extended in lockstep with this much fuel. -/
def ExtendLockstep (config config' : Config) (fuel : Nat) : Prop :=
  ∀ frames least left, config.Allows .traceFrames frames →
    Lockstep config (fun _ => True) (extend config.maxTraceFrames fuel frames least left)
      (extend config'.maxTraceFrames fuel frames least left)

/-- Putting a node together does not depend on limits. -/
theorem lockstep_assemble (before : List Tree) (kind : NodeKind) (form : List Entry)
    (rest : List Piece) :
    Lockstep config (fun _ => True) (assemble before kind form rest)
      (assemble before kind form rest) :=
  (lockstep_ofTree _).bind fun _ _ => lockstep_ok trivial

/-- Putting an operator together with its operand, if there is one. -/
theorem lockstep_prefixed (hclimb : ClimbLockstep config config' fuel) {frames : Nat}
    (hframes : config.Allows .traceFrames frames) (least : Nat) (rest : List Piece)
    (before : List Tree) (kind : NodeKind) (form : Climbed → List Entry) :
    Lockstep config (fun _ => True)
      (do match ← climb config.maxTraceFrames fuel frames least rest with
          | none => return none
          | some operand => return some (← assemble before kind (form operand) operand.rest))
      (do match ← climb config'.maxTraceFrames fuel frames least rest with
          | none => return none
          | some operand => return some (← assemble before kind (form operand) operand.rest)) := by
  refine (hclimb frames least rest hframes).bind fun operand? _ => ?_
  cases operand? with
  | none => exact lockstep_ok trivial
  | some operand => exact (lockstep_assemble _ _ _ _).bind fun _ _ => lockstep_ok trivial

theorem primary_lockstep (hclimb : ClimbLockstep config config' fuel) :
    PrimaryLockstep config config' (fuel + 1) := by
  intro frames pieces hframes
  rw [primary, primary]
  rcases skipTrivia pieces with ⟨before, _ | ⟨piece, rest⟩⟩
  · exact lockstep_ok trivial
  · cases piece with
    | operation op token =>
      cases op with
      | unary op => exact lockstep_prefixed hclimb hframes _ rest before _ _
      | await => exact lockstep_prefixed hclimb hframes _ rest before _ _
      | _ => exact lockstep_ok trivial
    | _ => exact lockstep_ok trivial

/-- A node that was put together is extended further. -/
theorem extendAssembled_lockstep (hextend : ExtendLockstep config config' fuel) {frames : Nat}
    (hframes : config.Allows .traceFrames frames) (least : Nat) (before : List Tree)
    (kind : NodeKind) (form : List Entry) (rest : List Piece) :
    Lockstep config (fun _ => True)
      (do extend config.maxTraceFrames fuel frames least (← assemble before kind form rest))
      (do extend config'.maxTraceFrames fuel frames least (← assemble before kind form rest)) :=
  (lockstep_assemble _ _ _ _).bind fun left _ => hextend frames least left hframes

theorem extend_lockstep (hclimb : ClimbLockstep config config' fuel)
    (hextend : ExtendLockstep config config' fuel) :
    ExtendLockstep config config' (fuel + 1) := by
  intro frames least left hframes
  have hself : Lockstep config (fun _ => True) (.ok left) (.ok left) := lockstep_ok trivial
  rw [extend, extend]
  rcases skipTrivia left.rest with ⟨gap, _ | ⟨piece, rest⟩⟩
  · exact hself
  · cases piece with
    | operation op token =>
      cases op with
      | binary op =>
        dsimp only
        cases op.binaryPrecedence? with
        | none => exact hself
        | some precedence =>
          dsimp only
          split
          · exact hself
          · refine (hclimb frames _ rest hframes).bind fun right? _ => ?_
            cases right? with
            | none => exact hself
            | some right => exact extendAssembled_lockstep hextend hframes _ _ _ _ _
      | ternaryIf =>
        dsimp only
        split
        · exact hself
        · refine (hclimb frames _ rest hframes).bind fun condition? _ => ?_
          cases condition? with
          | none => exact extendAssembled_lockstep hextend hframes _ _ _ _ _
          | some condition =>
            dsimp only
            split
            · refine (hclimb frames _ _ hframes).bind fun value? _ => ?_
              cases value? with
              | none => exact extendAssembled_lockstep hextend hframes _ _ _ _ _
              | some value => exact extendAssembled_lockstep hextend hframes _ _ _ _ _
            · exact extendAssembled_lockstep hextend hframes _ _ _ _ _
      | _ => exact hself
    | _ => exact hself

/-- Every operand takes one more frame, which is checked first. -/
theorem climb_lockstep (h : config.Relaxed config') (hprimary : PrimaryLockstep config config' fuel)
    (hextend : ExtendLockstep config config' fuel) :
    ClimbLockstep config config' (fuel + 1) := by
  intro frames least pieces hframes
  rw [climb, climb]
  refine (lockstep_checkDepth h .traceFrames hframes).bind fun _ hnext => ?_
  refine (hprimary _ pieces hnext).bind fun left? _ => ?_
  cases left? with
  | none => exact lockstep_ok trivial
  | some left => exact (hextend _ least left hnext).bind fun _ _ => lockstep_ok trivial

/-- With any fuel operands are built in lockstep. -/
theorem lockstep (h : config.Relaxed config') (fuel : Nat) :
    ClimbLockstep config config' fuel ∧ PrimaryLockstep config config' fuel ∧
      ExtendLockstep config config' fuel := by
  induction fuel with
  | zero =>
    refine ⟨fun frames least pieces _ => ?_, fun frames pieces _ => ?_,
      fun frames least left _ => ?_⟩
    · rw [climb, climb]
      exact lockstep_ok trivial
    · rw [primary, primary]
      exact lockstep_ok trivial
    · rw [extend, extend]
      exact lockstep_ok trivial
  | succ fuel ih =>
    obtain ⟨hclimb, hprimary, hextend⟩ := ih
    exact ⟨climb_lockstep h hprimary hextend, primary_lockstep hclimb,
      extend_lockstep hclimb hextend⟩

/-- A whole expression is folded from no frames on. -/
theorem fold_lockstep (h : config.Relaxed config') (pieces : List Piece) :
    Lockstep config (fun _ => True) (fold config.maxTraceFrames pieces)
      (fold config'.maxTraceFrames pieces) := by
  have hnone : config.Allows .traceFrames 0 := fun max _ => Nat.zero_le max
  refine ((lockstep h _).1 0 0 pieces hnone).bind fun top? _ => ?_
  cases top? with
  | none => exact lockstep_ok trivial
  | some top => exact lockstep_ok trivial

end Climbed

/-! ### Reading -/

namespace Reader

variable {config config' : Config}

/-- Limits are nothing to the states themselves. -/
theorem onSignal_relaxed (h : config.Relaxed config') (signal : Signal) (r : Reader) :
    r.onSignal config' signal = r.onSignal config signal := by
  have hmeasure : BlockReader.measure config' = BlockReader.measure config := by
    funext indent
    rw [BlockReader.measure, BlockReader.measure, h.indentationSize, h.spacesAsIndentation]
  cases r with
  | block r =>
    simp only [onSignal, BlockReader.onSignal, BlockReader.onLineStart, BlockReader.onAfterIndent,
      BlockReader.onContent, hmeasure]
  | _ => rfl

/-- States end in lockstep; an expression is folded at its end. -/
theorem finish_lockstep (h : config.Relaxed config') (r : Reader) :
    Lockstep config (fun _ => True) (r.finish config) (r.finish config') := by
  cases r with
  | expression r =>
    exact (Climbed.fold_lockstep h _).bind fun _ _ => lockstep_ok trivial
  | _ => exact lockstep_ok trivial

end Reader

namespace Automaton

variable {config config' : Config} {a : Automaton}

/-- No more states are open than the limit allows. -/
def Within (config : Config) (a : Automaton) : Prop :=
  config.Allows .readingStack a.stack.length

/-- Fewer open states are allowed as well. -/
theorem Within.mono {a' : Automaton} (h : a.Within config)
    (hle : a'.stack.length ≤ a.stack.length) : a'.Within config :=
  fun max hmax => Nat.le_trans hle (h max hmax)

/-- Opening a state takes one more place on the stack, which is checked first. -/
theorem push_lockstep (h : config.Relaxed config') (ha : a.Within config) (inner : Reader) :
    Lockstep config (Within config) (a.push config inner) (a.push config' inner) :=
  (lockstep_checkDepth h .readingStack ha).bind fun _ hnext => lockstep_ok hnext

theorem pop_lockstep (h : config.Relaxed config') (ha : a.Within config) :
    Lockstep config (Within config) (a.pop config) (a.pop config') := by
  have hwithin {stack : List Reader} (hle : stack.length ≤ a.stack.length) {a' : Automaton}
      (heq : a'.stack = stack) : a'.Within config :=
    ha.mono (by rw [heq]; exact hle)
  unfold pop
  rcases hstack : a.stack with _ | ⟨top, _ | ⟨outer, below⟩⟩
  · exact lockstep_ok ha
  · refine (top.finish_lockstep h).bind fun d _ => lockstep_ok ?_
    exact hwithin (Nat.zero_le _) rfl
  · refine (top.finish_lockstep h).bind fun d _ => ?_
    refine (lockstep_ofTree (outer.onDelivery d)).bind fun receipt _ => lockstep_ok ?_
    exact hwithin (by rw [hstack]; simp) rfl

theorem absorb_lockstep (h : config.Relaxed config') (ha : a.Within config) (c : Char) :
    Lockstep config (Within config) (a.absorb config c) (a.absorb config' c) :=
  push_lockstep h ha _

/-- After a step of a signal no more states are open than the limit allows. -/
def Progress.Within (config : Config) : Progress → Prop
  | .taken a => a.Within config
  | .passed a => a.Within config

theorem perform_lockstep (h : config.Relaxed config') (ha : a.Within config) (c? : Option Char)
    (step : Step) :
    Lockstep config (Progress.Within config) (a.perform config c? step)
      (a.perform config' c? step) := by
  have hpop := pop_lockstep h ha
  cases step with
  | accept => exact lockstep_ok ha
  | acceptAndComplete => exact hpop.bind fun _ ha' => lockstep_ok ha'
  | complete => exact hpop.bind fun _ ha' => lockstep_ok ha'
  | enter inner => exact (push_lockstep h ha inner).bind fun _ ha' => lockstep_ok ha'
  | absorb =>
    cases c? with
    | none => exact hpop.bind fun _ ha' => lockstep_ok ha'
    | some c => exact (absorb_lockstep h ha c).bind fun _ ha' => lockstep_ok ha'

/-- A step is taken in lockstep. -/
theorem step_lockstep (h : config.Relaxed config') (ha : a.Within config) (signal : Signal) :
    Lockstep config (Progress.Within config) (a.step config signal) (a.step config' signal) := by
  unfold step
  rcases hstack : a.stack with _ | ⟨top, below⟩
  · refine lockstep_ok (P := Progress.Within config) ?_
    exact ha.mono (Nat.le_refl _)
  · cases hopening : a.opening with
    | cons inner more =>
      have hless : ({ a with stack := top :: below, opening := more } : Automaton).Within config :=
        ha.mono (Nat.le_of_eq (by rw [hstack]))
      exact (push_lockstep h hless inner).bind fun _ ha' => lockstep_ok ha'
    | nil =>
      dsimp only
      rw [top.onSignal_relaxed h]
      refine (lockstep_ofTree (top.onSignal config signal)).bind fun reaction _ => ?_
      exact perform_lockstep h (ha.mono (by rw [hstack]; simp)) _ _

/-- Ending states that were about to be opened opens none. -/
theorem closeInto_lockstep (h : config.Relaxed config') (outer : Reader) (opening : List Reader) :
    Lockstep config (fun _ => True) (closeInto config outer opening)
      (closeInto config' outer opening) := by
  induction opening generalizing outer with
  | nil => exact lockstep_ok trivial
  | cons inner more ih =>
    refine (ih inner).bind fun inner _ => ?_
    refine (inner.finish_lockstep h).bind fun d _ => ?_
    exact (lockstep_ofTree (outer.onDelivery d)).bind fun _ _ => lockstep_ok trivial

theorem unwindFrom_lockstep (h : config.Relaxed config') (notices : Notices) (top : Reader)
    (opening below : List Reader) :
    Lockstep config (fun _ => True) (unwindFrom config notices top opening below)
      (unwindFrom config' notices top opening below) := by
  induction below generalizing notices top opening with
  | nil =>
    refine (closeInto_lockstep h top opening).bind fun top _ => ?_
    exact (top.finish_lockstep h).bind fun _ _ => lockstep_ok trivial
  | cons outer below ih =>
    refine (closeInto_lockstep h top opening).bind fun top _ => ?_
    refine (top.finish_lockstep h).bind fun d _ => ?_
    exact (lockstep_ofTree (outer.onDelivery d)).bind fun receipt _ => ih _ _ _

theorem unwind_lockstep (h : config.Relaxed config') (ha : a.Within config) :
    Lockstep config (Within config) (a.unwind config) (a.unwind config') := by
  unfold unwind
  rcases a.stack with _ | ⟨top, below⟩
  · exact lockstep_ok ha
  · refine (unwindFrom_lockstep h a.notices top a.opening below).bind fun result _ => ?_
    exact lockstep_ok (ha.mono (Nat.zero_le _))

theorem force_lockstep (h : config.Relaxed config') (ha : a.Within config) (signal : Signal) :
    Lockstep config (Within config) (a.force config signal) (a.force config' signal) := by
  unfold force
  split
  · exact lockstep_ok (ha.mono (Nat.le_refl _))
  · cases signal.toChar? with
    | some c => exact absorb_lockstep h ha c
    | none => exact unwind_lockstep h ha

/-- A signal is delivered in lockstep: the number of steps that it may take is the same. -/
theorem deliver_lockstep (h : config.Relaxed config') (signal : Signal) (fuel : Nat)
    (ha : a.Within config) :
    Lockstep config (Within config) (a.deliver config signal fuel)
      (a.deliver config' signal fuel) := by
  induction fuel generalizing a with
  | zero => exact force_lockstep h ha signal
  | succ fuel ih =>
    refine (step_lockstep h ha signal).bind fun progress hprogress => ?_
    cases progress with
    | taken a => exact lockstep_ok hprogress
    | passed a => exact ih hprogress

/-- Characters are taken in lockstep. -/
theorem feed_lockstep (h : config.Relaxed config') (cs : List Char) (ha : a.Within config) :
    Lockstep config (Within config) (a.feed config cs) (a.feed config' cs) := by
  induction cs generalizing a with
  | nil => exact lockstep_ok ha
  | cons c cs ih =>
    rw [feed, feed, List.foldlM_cons, List.foldlM_cons]
    exact (deliver_lockstep h (.ofChar c) _ ha).bind fun _ ha' => ih ha'

/-- A whole text is read in lockstep. -/
theorem run_lockstep (h : config.Relaxed config') (root : Reader) (text : String) :
    Lockstep config (fun _ => True) (run config root text) (run config' root text) := by
  have hempty : ({} : Automaton).Within config := fun max _ => Nat.zero_le max
  refine (push_lockstep h hempty root).bind fun a ha => ?_
  refine (feed_lockstep h text.toList ha).bind fun a ha => ?_
  refine (deliver_lockstep h .endOfText _ ha).bind fun a ha => ?_
  exact (unwind_lockstep h ha).bind fun _ _ => lockstep_ok trivial

end Automaton

/-- Larger limits change nothing about a tree, and a refusal comes exactly one beyond the maximum
that it names. -/
theorem parse_relaxed {config config' : Config} (h : config.Relaxed config') (entrance : Entrance)
    (text : String) :
    (∀ t, parse entrance config text = .ok t → parse entrance config' text = .ok t) ∧
    ∀ e, parse entrance config text = .error (.depth e) →
      config.max? e.limit = some e.max ∧ e.depth = e.max + 1 := by
  have hlockstep : Lockstep config (fun _ => True) (parse entrance config text)
      (parse entrance config' text) := by
    refine (Automaton.run_lockstep h entrance.reader text).bind fun result _ => ?_
    exact (lockstep_ofTree _).bind fun _ _ => lockstep_ok trivial
  constructor
  · intro t ht
    rw [ht] at hlockstep
    exact hlockstep.1
  · intro e he
    rw [he] at hlockstep
    exact ⟨hlockstep.max_eq, hlockstep.depth_eq⟩

/-- The right operand of a sum takes a second frame, which a limit of one frame refuses and the
usual limits allow. -/
theorem parse_relaxed_sum :
    ({ maxTraceFrames := some 1 } : Config).Relaxed {} ∧
    (∃ t, parse .expression {} "a+b" = .ok t) ∧
    parse .expression { maxTraceFrames := some 1 } "a+b" =
      .error (.depth ⟨2, 1, .traceFrames⟩) ∧
    ((∀ t, parse .expression { maxTraceFrames := some 1 } "a+b" = .ok t →
        parse .expression {} "a+b" = .ok t) ∧
      ∀ e, parse .expression { maxTraceFrames := some 1 } "a+b" = .error (.depth e) →
        ({ maxTraceFrames := some 1 } : Config).max? e.limit = some e.max ∧
          e.depth = e.max + 1) := by
  have hrelaxed : ({ maxTraceFrames := some 1 } : Config).Relaxed {} := by
    refine ⟨rfl, rfl, rfl, fun limit max' hmax' => ?_⟩
    cases limit with
    | readingStack => exact ⟨max', hmax', Nat.le_refl max'⟩
    | traceFrames =>
      cases hmax'
      exact ⟨1, rfl, by decide⟩
  have hallowed : (parse .expression {} "a+b").toOption.any (fun _ => true) = true := by
    decide +kernel
  have hrefused : (parse .expression { maxTraceFrames := some 1 } "a+b").map (fun _ => ()) =
      .error (.depth ⟨2, 1, .traceFrames⟩) := by
    decide +kernel
  obtain ⟨t, ht, _⟩ := exists_of_any_toOption hallowed
  exact ⟨hrelaxed, ⟨t, ht⟩, eq_error_of_map_eq_error hrefused,
    parse_relaxed hrelaxed .expression "a+b"⟩

end ScriptTree
