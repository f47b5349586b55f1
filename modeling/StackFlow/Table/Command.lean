import StackFlow.Table.Source

/-! # The command that turns a table into source text -/

namespace StackFlow.Table

/-- What the command does with the files that it is given. -/
inductive Action where
  | read
  | parse
  | create
  | write
deriving DecidableEq, Repr

def Action.name : Action → String
  | read => "read"
  | parse => "parse"
  | create => "create"
  | write => "write"

/-- Why the command gives no source text. -/
inductive CommandError where
  /-- There are more arguments than two paths. -/
  | usage
  /-- A file cannot be read or written, or its text describes no table. The cause is what the
  system says, if it says something. -/
  | failed (action : Action) (path : String) (cause? : Option String)
  /-- The table is not well formed. -/
  | fault (f : Fault)
deriving DecidableEq, Repr

/-- What is printed for an error. -/
def CommandError.message : CommandError → String
  | usage => "usage: subroutine_check_codegen [spec.json] [opcodes_out.rs]"
  | failed action path _ => action.name ++ " " ++ path
  | fault f => f.message

/-- What is printed for the cause of an error. -/
def CommandError.cause? : CommandError → Option String
  | usage => none
  | failed _ _ cause? => cause?
  | fault f => f.cause?

/-- The paths that a command reads from and writes to. -/
structure Paths where
  spec : String := "subroutine_check/opcodes.json"
  source : String := "subroutine_check/src/opcodes_gen.rs"
deriving DecidableEq, Repr

/-- The paths that the arguments of a command name. -/
def Paths.ofArguments : List String → Except CommandError Paths
  | [] => .ok {}
  | [spec] => .ok { spec }
  | [spec, source] => .ok { spec, source }
  | _ => .error .usage

/-- The directory in front of the last name of a path, if there is one. -/
def directory? (path : String) : Option String :=
  let name := path.toList.reverse.dropWhile (· = '/')
  match name.dropWhile (· ≠ '/') with
  | [] => none
  | rest =>
    let directory := rest.dropWhile (· = '/')
    some (if directory.isEmpty then "/" else String.ofList directory.reverse)

/-- The source text of the table that the text of a file describes. -/
def compile (path text : String) : Except CommandError String :=
  match Spec.read? text with
  | none => .error (.failed .parse path none)
  | some s =>
    match s.source with
    | .ok source => .ok source
    | .error f => .error (.fault f)

end StackFlow.Table
