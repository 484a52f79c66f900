/-
A model of a disk: one directory of files, without directories inside it, and
the directories above it.

A path ends at its first zero byte. Each step of it but the last goes on to a
directory, and the last step names a file. A file in a directory above is known
by its name after the way up.
-/

import ScriptAudit.Command.Session
import ScriptAudit.Report.Printer

namespace ScriptAudit.Command

structure Directory where
  files : List (Bytes × Bytes)

inductive Refusal where
  | missing
  | notADirectory
  | isADirectory
  | nameTooLong
  deriving DecidableEq

def Refusal.reason : Refusal → Bytes
  | missing => "No such file or directory"
  | notADirectory => "Not a directory"
  | isADirectory => "Is a directory"
  | nameTooLong => "File name too long"

def untilZero (bytes : Bytes) : Bytes :=
  bytes.takeWhile (· != 0)

def steps : Bytes → List Bytes
  | [] => [[]]
  | byte :: rest =>
      if byte = Bytes.slash then [] :: steps rest
      else
        match steps rest with
        | [] => [[byte]]
        | first :: others => (byte :: first) :: others

def here : Bytes := "."

def above : Bytes := ".."

/-- A path is shorter than this. -/
def pathLimit : Nat := 4096

/-- A step of a path is no longer than this. -/
def stepLimit : Nat := 255

namespace Directory

def lookup (directory : Directory) (name : Bytes) : Option Bytes :=
  directory.files.lookup name

/-- Goes on from the directory that `way` leads up to, which knows only the
directory above it. -/
def enter (directory : Directory) (way step : Bytes) : Except Refusal Bytes :=
  if step = here then .ok way
  else if step = above then .ok (way ++ above ++ [Bytes.slash])
  else if stepLimit < step.length then .error .nameTooLong
  else if (directory.lookup (way ++ step)).isSome then .error .notADirectory
  else .error .missing

/-- The file that a last step names. No file is meant by a step that leads to a
directory, or by a name with a slash after it. -/
def finalName (closed : Bool) (way step : Bytes) : Except Refusal Bytes :=
  if closed || step == here || step == above then .error .isADirectory
  else if stepLimit < step.length then .error .nameTooLong
  else .ok (way ++ step)

/-- The file that the steps of a path lead to; `closed` says that the path ends
with a slash. -/
def follow (directory : Directory) (closed : Bool) (way : Bytes) :
    List Bytes → Except Refusal Bytes
  | [] => .error .missing
  | [last] => finalName closed way last
  | step :: next :: rest =>
      match directory.enter way step with
      | .error refusal => .error refusal
      | .ok further => directory.follow closed further (next :: rest)

/-- The name of the file that a path leads to, whether it exists or not. No
file is known by a path from the root. -/
def resolve (directory : Directory) (path : Bytes) : Except Refusal Bytes :=
  let path := untilZero path
  if pathLimit ≤ path.length then .error .nameTooLong
  else if path.head? == some Bytes.slash then .error .missing
  else
    directory.follow (path.getLast? == some Bytes.slash) []
      ((steps path).filter (!·.isEmpty))

def read (directory : Directory) (path : Bytes) : Option Bytes :=
  match directory.resolve path with
  | .ok name => directory.lookup name
  | .error _ => none

def put (directory : Directory) (name contents : Bytes) : Directory :=
  { files := (name, contents)
      :: directory.files.filter fun file => file.1 != name }

def write (directory : Directory) (path contents : Bytes) :
    Except Refusal Directory :=
  (directory.resolve path).map fun name => directory.put name contents

def load (directory : Directory) (path : Bytes) : Except Bytes Bytes :=
  match directory.read path with
  | some contents => .ok contents
  | none => .error (unreadable path)

def save (directory : Directory) (path contents : Bytes) :
    Except Bytes Directory :=
  match directory.write path contents with
  | .ok changed => .ok changed
  | .error refusal => .error (unwritable path refusal.reason)

end Directory

def Session.run (directory : Directory) : Session → Outcome × Directory
  | .exit outcome => (outcome, directory)
  | .read path next => (next (directory.read path)).run directory
  | .write path contents next =>
      match directory.write path contents with
      | .ok changed => (next none).run changed
      | .error refusal => (next (some refusal.reason)).run directory

/-- A run of the command in a directory. An argument ends at its first zero
byte, and so does the value from the environment. -/
def run (environment : Option Bytes) (arguments : List Bytes)
    (directory : Directory) : Outcome × Directory :=
  (Session.ofArguments Json.text (environment.map untilZero)
    (arguments.map untilZero)).run directory

end ScriptAudit.Command
