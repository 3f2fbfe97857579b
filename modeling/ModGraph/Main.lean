import ModGraph.Command.Arguments
import ModGraph.FileSystem.Snapshot

/-!
# The program

Reads the environment and the description of the file system, runs the command, and prints what it
answers.
-/

open ModGraph

/-- Run the command. -/
def main (arguments : List String) : IO UInt32 := do
  match Invocation.ofArguments? arguments with
  | none =>
    IO.eprintln Invocation.usage
    return 2
  | some (command, snapshot) =>
    let env : Environment := ⟨← IO.getEnv "HOME", ← IO.getEnv "NODE_PATH"⟩
    match FileSystem.ofText? (← IO.FS.readFile snapshot) with
    | none =>
      IO.eprintln (Report.errorText s!"{snapshot} describes no file system")
      return 1
    | some fs =>
      match command.run env fs with
      | .ok text =>
        IO.print text
        return 0
      | .error message =>
        IO.eprintln (Report.errorText message)
        return 1
