import ScriptTree.Config
import ScriptTree.Literal.Number
import ScriptTree.Tree.Outline

/-!
The arguments of a command. Whatever begins with two dashes has to be a known option; everything
else is a path. Options count in the order in which they are given, so the last one wins.
-/

namespace ScriptTree.Command

/-- The settings of one run. -/
structure Options where
  config : Config := {}
  /-- Whether carriage returns are left out of the text. -/
  canonical : Bool := false
  deriving DecidableEq, Repr

/-- How the options have a tree rendered. -/
def Options.renderMode (options : Options) : RenderMode :=
  if options.canonical then .canonical else .literal

/-- Why arguments are refused. -/
inductive OptionError where
  | unknown (argument : String)
  | invalidNumber (argument : String)
  deriving DecidableEq, Repr

/-- The text of the error. -/
def OptionError.message : OptionError → String
  | unknown argument => "unknown option '" ++ argument ++ "'"
  | invalidNumber argument => "invalid number in '" ++ argument ++ "'"

/-- The largest number an option may carry. -/
def maxCount : Nat := 0xffffffffffffffff

/-- The number that decimal digits denote; a plus sign may stand before them. -/
def count? (text : List Char) : Option Nat :=
  let digits := if text.head? = some '+' then text.drop 1 else text
  let value := NumberValue.ofDigits 10 digits
  if !digits.isEmpty && digits.all Text.isDigit && value ≤ maxCount then some value else none

/-- A limit: a number, or the word that lifts the limit. -/
def limit? (text : List Char) : Option (Option Nat) :=
  if text.map Char.toLower = "none".toList then some none else (count? text).map some

/-- What one option sets. -/
inductive Setting where
  | indentSize (size : Nat)
  | noSpaceIndent
  | maxDepth (max : Option Nat)
  | maxFrames (max : Option Nat)
  | bufferSize (size : Nat)
  | canonical
  deriving DecidableEq, Repr

/-- The options with one of them set. A buffer holds at least one byte. -/
def Options.set (options : Options) : Setting → Options
  | .indentSize size => { options with config.indentationSize := size }
  | .noSpaceIndent => { options with config.spacesAsIndentation := false }
  | .maxDepth max => { options with config.maxReadingStack := max }
  | .maxFrames max => { options with config.maxTraceFrames := max }
  | .bufferSize size => { options with config.readBufferSize := max size 1 }
  | .canonical => { options with canonical := true }

/-- The options that carry a value, each with how the value is read. -/
def valued : List (String × (List Char → Option Setting)) :=
  [("--indent-size=", fun value => (count? value).map .indentSize),
   ("--max-depth=", fun value => (limit? value).map .maxDepth),
   ("--max-frames=", fun value => (limit? value).map .maxFrames),
   ("--buffer-size=", fun value => (count? value).map .bufferSize)]

/-- What one argument is. -/
inductive Argument where
  | path (text : String)
  | option (setting : Setting)
  deriving DecidableEq, Repr

/-- The option that an argument sets by its value; `none` if it is of another form. -/
def valuedSetting? (argument : String) :
    List (String × (List Char → Option Setting)) → Option (Except OptionError Setting)
  | [] => none
  | (name, read) :: rest =>
    match name.toList.isPrefixOf? argument.toList with
    | some value =>
      match read value with
      | some setting => some (.ok setting)
      | none => some (.error (.invalidNumber argument))
    | none => valuedSetting? argument rest

/-- Read one argument. -/
def Argument.read (argument : String) : Except OptionError Argument :=
  match valuedSetting? argument valued with
  | some setting => setting.map .option
  | none =>
    if argument = "--no-space-indent" then .ok (.option .noSpaceIndent)
    else if argument = "--canonical" then .ok (.option .canonical)
    else if ['-', '-'].isPrefixOf argument.toList then .error (.unknown argument)
    else .ok (.path argument)

/-- Read arguments on top of options already set; returns the options and the paths. -/
def Options.read (options : Options) : List String → Except OptionError (Options × List String)
  | [] => .ok (options, [])
  | argument :: rest => do
    match ← Argument.read argument with
    | .option setting => (options.set setting).read rest
    | .path path =>
      let (options, paths) ← options.read rest
      return (options, path :: paths)

/-- The options and the paths that arguments give. -/
def Options.ofArguments (arguments : List String) : Except OptionError (Options × List String) :=
  ({} : Options).read arguments

/-- Paths keep their order, and none is lost or added. -/
theorem Options.read_paths (options : Options) (paths : List String)
    (h : ∀ path ∈ paths, Argument.read path = .ok (.path path)) :
    options.read paths = .ok (options, paths) := by
  induction paths with
  | nil => rfl
  | cons path paths ih =>
    rw [Options.read, h path List.mem_cons_self]
    simp [bind, Except.bind, ih fun p hp => h p (List.mem_cons_of_mem _ hp), pure, Except.pure]

end ScriptTree.Command
