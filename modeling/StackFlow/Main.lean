import StackFlow.Table.Command

/-! # The command line: reads a table, writes its source text -/

namespace StackFlow.Table

/-- Does something with a file. If it fails, the error says what and with which file. -/
def attempt {α : Type} (action : Action) (path : String) (io : IO α) :
    ExceptT CommandError IO α := do
  match ← io.toBaseIO with
  | .ok a => return a
  | .error e => throw (.failed action path (some e.toString))

/-- Turns the table at one path into source text at another, in a directory that is made if need
be. -/
def translate (paths : Paths) : ExceptT CommandError IO Unit := do
  let text ← attempt .read paths.spec (IO.FS.readFile paths.spec)
  let source ← liftExcept (compile paths.spec text)
  if let some directory := directory? paths.source then
    attempt .create directory (IO.FS.createDirAll directory)
  attempt .write paths.source (IO.FS.writeFile paths.source source)

end StackFlow.Table

open StackFlow.Table in
def main (arguments : List String) : IO UInt32 := do
  let command : ExceptT CommandError IO Unit := do
    translate (← liftExcept (Paths.ofArguments arguments))
  match ← command.run with
  | .ok _ => return 0
  | .error e =>
    IO.eprintln ("Error: " ++ e.message)
    if let some cause := e.cause? then IO.eprintln ("\nCaused by:\n    " ++ cause)
    return 1
