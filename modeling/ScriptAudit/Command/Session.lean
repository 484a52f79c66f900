/-
One run of the command: what it reads and writes, and how it ends.

A session is a value. It asks for the contents of a file, or for a file to be
written, and goes on with the answer; so the same session can be carried out on
a real disk or on a model of one.
-/

import ScriptAudit.Audit.Basic
import ScriptAudit.Command.Options
import ScriptAudit.Grammar.Program
import ScriptAudit.Report.Json
import ScriptAudit.Report.Text

namespace ScriptAudit.Command

structure Outcome where
  status : Nat
  output : Bytes
  messages : Bytes
  deriving DecidableEq

/-- Reading answers with the contents, if there are any; writing answers with
the reason for a refusal, if there is one. -/
inductive Session where
  | exit (outcome : Outcome)
  | read (path : Bytes) (next : Option Bytes → Session)
  | write (path contents : Bytes) (next : Option Bytes → Session)

def helpLines : List Bytes :=
  ["jsguard - static analyzer for JavaScript sources",
    "Usage:",
    "  jsguard <file.js> [options]",
    "",
    "Options:",
    "  -h, --help               Show this help",
    "  -o, --output <file>      Write the report to <file>",
    "  --format text|json       Report format (default: text)",
    "  --tokens                 Print the token stream and exit",
    "  --verbose                Print extra information",
    "",
    "Environment:",
    "  JSGUARD_FORMAT           Default report format (text or json)",
    "",
    "Examples:",
    "  jsguard app.js",
    "  jsguard app.js --format json -o report.json"]

def unreadable (path : Bytes) : Bytes :=
  "Could not open file: " ++ path

def unwritable (path reason : Bytes) : Bytes :=
  "Could not write report to '" ++ path ++ "': " ++ reason

def errorLine (message : Bytes) : Bytes :=
  "Error: " ++ message

def usageLines (problem : UsageError) : List Bytes :=
  [errorLine problem.message, "Use --help to see available options."]

def savedLine (path : Bytes) : Bytes :=
  "Analysis complete. Results saved to " ++ path

def note (text : Bytes) : Bytes :=
  "[jsguard] " ++ text

def tokenNote (tokens : List Token) : Bytes :=
  note ("tokens: " ++ Bytes.decimal tokens.length)

def parseNotes (parsed : Parsed) : List Bytes :=
  note ("statements: " ++ Bytes.decimal parsed.program.body.length)
    :: parsed.diagnostics.map fun diagnostic =>
      note ("parse error: " ++ diagnostic.message)

def auditNote (findings : List Finding) : Bytes :=
  note ("issues: " ++ Bytes.decimal findings.length)

def notes (options : Options) (lines : List Bytes) : List Bytes :=
  if options.verbose then lines else []

variable (print : Json → Bytes)

def fileReport (format : Format) (findings : List Finding) : Bytes :=
  match format with
  | .text => Bytes.unlines [Report.listing findings]
  | .json => Report.document print findings

def printedReport (format : Format) (findings : List Finding) : Bytes :=
  match format with
  | .text => Report.text findings
  | .json => Report.document print findings

namespace Session

def succeed (output : Bytes) (messages : List Bytes) : Session :=
  .exit
    { status := 0
      output := output
      messages := Bytes.unlines messages }

def fail (messages : List Bytes) : Session :=
  .exit
    { status := 1
      output := []
      messages := Bytes.unlines messages }

def deliver (options : Options) (findings : List Finding)
    (messages : List Bytes) : Session :=
  if options.output.isEmpty then
    succeed (printedReport print options.format findings) messages
  else
    .write options.output (fileReport print options.format findings) fun
      | none =>
          succeed (Bytes.unlines [savedLine options.output]) messages
      | some reason =>
          fail (messages ++ [errorLine (unwritable options.output reason)])

def analyze (options : Options) (source : Bytes) : Session :=
  let tokens := tokenize source
  if options.tokens then
    succeed (Report.tokenDump tokens) (notes options [tokenNote tokens])
  else
    let parsed := parseTokens tokens
    let findings := audit parsed.program
    deliver print options findings
      (notes options
        (tokenNote tokens :: parseNotes parsed ++ [auditNote findings]))

def ofOptions (options : Options) : Session :=
  if options.help then
    succeed (Bytes.unlines helpLines) []
  else
    .read options.input fun
      | none => fail [errorLine (unreadable options.input)]
      | some source => analyze print options source

def ofArguments (environment : Option Bytes) (arguments : List Bytes) :
    Session :=
  match Options.ofArguments (Format.ofEnvironment environment) arguments with
  | .error problem => fail (usageLines problem)
  | .ok options => ofOptions print options

end Session

end ScriptAudit.Command
