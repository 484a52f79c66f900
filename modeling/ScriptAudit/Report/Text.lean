/-
Reports in plain text.
-/

import ScriptAudit.Report.Summary
import ScriptAudit.Token.Basic

namespace ScriptAudit.Report

open Bytes

def joinLines : List Bytes → Bytes
  | [] => []
  | [line] => line
  | line :: next :: rest => line ++ newline :: joinLines (next :: rest)

/-- One line for each finding, or a line that says there is none. -/
def listing (findings : List Finding) : Bytes :=
  match findings with
  | [] => "No issues detected."
  | _ :: _ => joinLines (findings.map Finding.line)

/-- The categories that occur, in the order of their first finding. -/
def categories (findings : List Finding) : List Category :=
  (findings.map Finding.category).eraseDups

def categoryLine (summary : Summary) (category : Category) : Bytes :=
  "- " ++ category.name ++ ": " ++ decimal (summary.byCategory category)

def headLines : List Bytes :=
  ["", "Analysis Results:", "----------------"]

def summaryLines (findings : List Finding) : List Bytes :=
  let summary := Summary.ofFindings findings
  "Summary:" :: ("Total issues: " ++ decimal summary.total)
    :: (categories findings).map (categoryLine summary)

def text (findings : List Finding) : Bytes :=
  unlines (headLines ++ listing findings :: "" :: summaryLines findings)

def tokenDump (tokens : List Token) : Bytes :=
  unlines (tokens.map Token.dump)

end ScriptAudit.Report
