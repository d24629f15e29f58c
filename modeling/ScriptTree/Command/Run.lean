import ScriptTree.Command.Comparison
import ScriptTree.Command.Problem

/-!
A whole run of the program, from its arguments and the files it may read to what it prints and
the code with which it exits.
-/

namespace ScriptTree.Command

/-- Why a file cannot be read. -/
inductive FileError where
  | missing
  | denied
  | notText
  | other (reason : String)
  deriving DecidableEq, Repr

/-- The text of the error for a path. -/
def FileError.message (path : String) : FileError → String
  | missing => "cannot find file '" ++ path ++ "'"
  | denied => "permission denied reading '" ++ path ++ "'"
  | notText => "'" ++ path ++ "' contains invalid UTF-8 data"
  | other reason => "error reading '" ++ path ++ "': " ++ reason

/-- What reading each path gives. -/
abbrev Files := String → Except FileError String

/-- What a run prints, and the code with which it exits. -/
structure Outcome where
  stdout : String := ""
  stderr : String := ""
  exit : UInt8 := 0
  deriving DecidableEq, Repr

namespace Outcome

/-- A run that only prints. -/
def success (stdout : String) : Outcome := { stdout }

/-- A run that only complains. -/
def failure (stderr : String) (exit : UInt8) : Outcome := { stderr, exit }

/-- The run after something was printed. -/
def after (stdout : String) (o : Outcome) : Outcome :=
  { o with stdout := stdout ++ o.stdout }

/-- A file that cannot be read ends the run. -/
def unreadable (path : String) (e : FileError) : Outcome :=
  failure (e.message path ++ "\n") 1

/-- A hint at the options that set the limit that was exceeded. -/
def hint : ParseError → String
  | .depth e =>
    "note: raise the limit with --max-depth or --max-frames (currently " ++ toString e.max ++ ")\n"
  | .tree _ => ""

/-- A script that gives no tree ends the run. -/
def unparsed (path : String) (e : ParseError) : Outcome :=
  failure ("error: " ++ path ++ ": " ++ e.message ++ "\n" ++ hint e) 2

end Outcome

/-- The name of the program. -/
def programName : String := "gdsc"

/-- The version of the program. -/
def version : String := "0.1.0"

/-- The help text. -/
def usage : String :=
  String.join <| [
    "gdsc (lossless GDScript syntax trees)",
    "",
    "Usage: gdsc <command> [options]",
    "",
    "Commands:",
    "  parse <file.gd>          Parse and print the syntax tree",
    "  check <file.gd>...       List text the parser could not place",
    "  render <file.gd>         Print the file back from its tree",
    "  reparse <old> <new>      Reparse incrementally and report reuse",
    "  help                     Show this help message",
    "  version                  Show version information",
    "",
    "Options:",
    "  --indent-size=<n>        Spaces per indentation level (default: 4)",
    "  --no-space-indent        Only tabs count as indentation",
    "  --max-depth=<n|none>     Nested reading states limit (default: 64)",
    "  --max-frames=<n|none>    Recursive frames limit (default: 512)",
    "  --buffer-size=<n>        Read chunk size in bytes (default: 4096)",
    "  --canonical              Render without carriage returns",
    "",
    "Environment:",
    "  RUST_LOG=gds_parse=debug Show parser and reparse decisions",
    "",
    "Examples:",
    "  gdsc parse player.gd",
    "  gdsc check scripts/*.gd",
    "  gdsc render player.gd --canonical",
    "  gdsc reparse before.gd after.gd"].map (· ++ "\n")

/-- What a command does with its files. -/
inductive Task where
  | parse
  | check
  | render
  | reparse
  deriving DecidableEq, Repr

namespace Task

/-- The help text of a task given the wrong number of paths. -/
def usage : Task → String
  | .parse => "Usage: gdsc parse <file.gd> [options]\n"
  | .check => "Usage: gdsc check <file.gd>... [options]\n"
  | .render => "Usage: gdsc render <file.gd> [--canonical] [options]\n"
  | .reparse =>
    "Usage: gdsc reparse <old.gd> <new.gd> [options]\n\n"
      ++ "Parses <old.gd>, reparses it incrementally into <new.gd> and\n"
      ++ "checks the result against a full parse of <new.gd>.\n"

/-- Print what a script gives. -/
def printed (files : Files) (path : String)
    (view : String → Except ParseError String) : Outcome :=
  match files path with
  | .error e => .unreadable path e
  | .ok source =>
    match view source with
    | .error e => .unparsed path e
    | .ok text => .success text

/-- Print the problems of scripts one after another, of which `found` are already known. The
first script that cannot be read ends the run. -/
def checkFrom (files : Files) (options : Options) (found : Nat) : List String → Outcome
  | [] =>
    if found = 0 then {} else .failure (toString found ++ " problem(s) found\n") 1
  | path :: rest =>
    match files path with
    | .error e => .unreadable path e
    | .ok source =>
      match problems options source with
      | .error e => .unparsed path e
      | .ok problems =>
        (checkFrom files options (found + problems.length) rest).after
          (String.join (problems.map fun p => path ++ ":" ++ p.display ++ "\n"))

/-- Print the comparison of two versions of a script. -/
def compare (files : Files) (options : Options) (old new : String) : Outcome :=
  match files old, files new with
  | .error e, _ => .unreadable old e
  | .ok _, .error e => .unreadable new e
  | .ok oldText, .ok newText =>
    match Comparison.ofVersions options.config oldText newText with
    | .error e => .failure ("error: " ++ e.message ++ "\n") 2
    | .ok c => { stdout := c.display ++ "\n", exit := if c.consistent then 0 else 1 }

/-- Do a task with the files of the given paths. -/
def run (files : Files) (options : Options) : Task → List String → Outcome
  | .parse, [path] => printed files path (outline options)
  | .render, [path] => printed files path (Command.render options)
  | .check, path :: paths => checkFrom files options 0 (path :: paths)
  | .reparse, [old, new] => compare files options old new
  | task, _ => .failure task.usage 1

/-- The task of a command. -/
def ofName? : String → Option Task
  | "parse" => some .parse
  | "check" => some .check
  | "render" => some .render
  | "reparse" => some .reparse
  | _ => none

end Task

/-- Run the program. -/
def run (files : Files) : List String → Outcome
  | [] => .success usage
  | name :: arguments =>
    match Task.ofName? name with
    | some task =>
      match Options.ofArguments arguments with
      | .error e => .failure ("error: " ++ e.message ++ "\n") 1
      | .ok (options, paths) => task.run files options paths
    | none =>
      if ["help", "--help", "-h"].contains name then .success usage
      else if ["version", "--version", "-v"].contains name then
        .success (programName ++ " " ++ version ++ "\n")
      else (Outcome.failure ("Unknown command: " ++ name ++ "\n\n") 1).after usage

end ScriptTree.Command
