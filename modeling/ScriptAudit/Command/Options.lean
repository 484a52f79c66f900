/-
The options of the command line.

Arguments are read from left to right. An option that takes a value takes the
next argument, whatever it looks like; a later value replaces an earlier one.
-/

import ScriptAudit.Bytes

namespace ScriptAudit.Command

inductive Format where
  | text
  | json
  deriving DecidableEq

def Format.ofName? (name : Bytes) : Option Format :=
  if name = "text" then some .text
  else if name = "json" then some .json
  else none

/-- The format that the environment asks for; a name of none asks for text. -/
def Format.ofEnvironment (name : Option Bytes) : Format :=
  (name.bind ofName?).getD .text

structure Options where
  help : Bool
  verbose : Bool
  tokens : Bool
  input : Bytes
  output : Bytes
  format : Format
  deriving DecidableEq

inductive UsageError where
  | missingFormat
  | invalidFormat (value : Bytes)
  | missingOutput
  | unknownOption (argument : Bytes)
  | severalInputs
  | noInput
  deriving DecidableEq

def UsageError.message : UsageError → Bytes
  | missingFormat => "Missing value for --format."
  | invalidFormat value => "Invalid format: " ++ value
  | missingOutput => "Missing value for --output."
  | unknownOption argument => "Unknown option: " ++ argument
  | severalInputs => "Multiple input files given."
  | noInput => "Please provide a file to analyze."

namespace Options

def initial (format : Format) : Options :=
  { help := false
    verbose := false
    tokens := false
    input := []
    output := []
    format := format }

def isHyphenated (argument : Bytes) : Bool :=
  argument.head? == some 0x2d

/-- An argument that is neither an option nor the value of one. -/
def addInput (options : Options) (argument : Bytes) :
    Except UsageError Options :=
  if isHyphenated argument then .error (.unknownOption argument)
  else if options.input.isEmpty then .ok { options with input := argument }
  else .error .severalInputs

def scan (options : Options) : List Bytes → Except UsageError Options
  | [] => .ok options
  | argument :: rest =>
      if argument = "-h" ∨ argument = "--help" then
        scan { options with help := true } rest
      else if argument = "--verbose" then
        scan { options with verbose := true } rest
      else if argument = "--tokens" then
        scan { options with tokens := true } rest
      else if argument = "--format" then
        match rest with
        | [] => .error .missingFormat
        | value :: others =>
            match Format.ofName? value with
            | none => .error (.invalidFormat value)
            | some format => scan { options with format := format } others
      else if argument = "-o" ∨ argument = "--output" then
        match rest with
        | [] => .error .missingOutput
        | value :: others => scan { options with output := value } others
      else
        match options.addInput argument with
        | .error problem => .error problem
        | .ok extended => scan extended rest

/-- An input has to be given, unless help is asked for. -/
def check (options : Options) : Except UsageError Options :=
  if options.input.isEmpty && !options.help then .error .noInput
  else .ok options

def ofArguments (format : Format) (arguments : List Bytes) :
    Except UsageError Options :=
  match scan (initial format) arguments with
  | .error problem => .error problem
  | .ok options => options.check

end Options

end ScriptAudit.Command
