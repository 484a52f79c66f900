/-
The command itself: carries out a session on the real disk.
-/

import ScriptAudit.Command.Session
import ScriptAudit.Report.Printer

namespace ScriptAudit.Command

def pathOf? (path : Bytes) : Option String :=
  String.fromUTF8? ⟨path.toArray⟩

def readFile? (path : Bytes) : IO (Option Bytes) := do
  match pathOf? path with
  | none => return none
  | some name =>
      try
        let contents ← IO.FS.readBinFile name
        return some contents.data.toList
      catch _ =>
        return none

def reasonOf : IO.Error → Bytes
  | .noFileOrDirectory .. => "No such file or directory"
  | .permissionDenied .. => "Permission denied"
  | .inappropriateType .. => "Not a directory"
  | problem => problem.toString

/-- Writes a file; the answer is the reason for a refusal. -/
def writeFile? (path contents : Bytes) : IO (Option Bytes) := do
  match pathOf? path with
  | none => return some "Invalid argument"
  | some name =>
      try
        IO.FS.writeBinFile name ⟨contents.toArray⟩
        return none
      catch problem =>
        return some (reasonOf problem)

def Session.perform : Session → IO Outcome
  | .exit outcome => return outcome
  | .read path next => do
      let contents ← readFile? path
      (next contents).perform
  | .write path contents next => do
      let refusal ← writeFile? path contents
      (next refusal).perform

end ScriptAudit.Command

open ScriptAudit in
def main (arguments : List String) : IO UInt32 := do
  let environment ← IO.getEnv "JSGUARD_FORMAT"
  let session := Command.Session.ofArguments Json.text
    (environment.map Bytes.ofString) (arguments.map Bytes.ofString)
  let outcome ← session.perform
  (← IO.getStdout).write ⟨outcome.output.toArray⟩
  (← IO.getStderr).write ⟨outcome.messages.toArray⟩
  return outcome.status.toUInt32
