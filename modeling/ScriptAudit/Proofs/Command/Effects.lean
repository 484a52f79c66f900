/-
What a run of the command does to the files of a disk.

A run that fails prints nothing and changes no file. A run that succeeds changes no
file but the one it is to save its report in, and that file then holds the report.
Whether a run fails is settled by the arguments and by the paths that can be read and
written; what the files hold has no part in it.
-/

import Mathlib.Logic.Function.Basic
import ScriptAudit.Proofs.Command.Arguments
import ScriptAudit.Proofs.Command.Running

namespace ScriptAudit.Command

/-- Files by their paths, and the reasons for which files cannot be written at some
paths. A path is only a name: none leads to a directory or to a stream. -/
structure Disk where
  contents : Bytes → Option Bytes
  refusal : Bytes → Option Bytes

namespace Disk

def put (disk : Disk) (path bytes : Bytes) : Disk :=
  { disk with contents := Function.update disk.contents path (some bytes) }

def write (disk : Disk) (path bytes : Bytes) : Except Bytes Disk :=
  match disk.refusal path with
  | none => .ok (disk.put path bytes)
  | some reason => .error reason

def fileSystem : FileSystem Disk where
  read := contents
  write := write

def run (disk : Disk) (print : Json → Bytes) (environment : Option Bytes)
    (arguments : List Bytes) : Outcome × Disk :=
  (Session.ofArguments print environment arguments).runOn fileSystem disk

variable {disk changed : Disk} {path bytes reason : Bytes}

theorem contents_put_self : (disk.put path bytes).contents path = some bytes :=
  Function.update_self _ _ _

theorem write_eq_ok_iff :
    disk.write path bytes = .ok changed ↔
      disk.refusal path = none ∧ changed = disk.put path bytes := by
  unfold write
  cases disk.refusal path <;> simp [eq_comm]

theorem write_eq_error_iff :
    disk.write path bytes = .error reason ↔ disk.refusal path = some reason := by
  unfold write
  cases disk.refusal path <;> simp

inductive Fails (disk : Disk) : Except UsageError Options → Prop
  | misused (problem : UsageError) : Fails disk (.error problem)
  | unread {options : Options} (unasked : options.help = false)
      (missing : disk.contents options.input = none) : Fails disk (.ok options)
  | refused {options : Options} (saves : options.Saves)
      (refusal : disk.refusal options.output ≠ none) : Fails disk (.ok options)

/-- The disks have files at the same paths, and files can be written at the same
paths. -/
structure SamePaths (first second : Disk) : Prop where
  readable : ∀ path, first.contents path = none ↔ second.contents path = none
  writable : ∀ path, first.refusal path = none ↔ second.refusal path = none

namespace SamePaths

variable {first second : Disk}

theorem symm (same : SamePaths first second) : SamePaths second first where
  readable path := (same.readable path).symm
  writable path := (same.writable path).symm

theorem fails {asked : Except UsageError Options} (same : SamePaths first second)
    (failed : Fails first asked) : Fails second asked := by
  cases failed with
  | misused problem => exact .misused problem
  | unread unasked missing =>
      exact .unread unasked ((same.readable _).mp missing)
  | refused saves refusal =>
      exact .refused saves (mt (same.writable _).mpr refusal)

end SamePaths

theorem status_eq_one_iff {print : Json → Bytes}
    {asked : Except UsageError Options} {result : Outcome × Disk}
    (ending : Ending print fileSystem disk asked result) :
    result.1.status = 1 ↔ Fails disk asked := by
  cases ending with
  | misused => exact iff_of_true rfl (.misused _)
  | unread unasked missing => exact iff_of_true rfl (.unread unasked missing)
  | refused saves found refusal =>
      refine iff_of_true rfl (.refused saves ?_)
      rw [write_eq_error_iff.mp refusal]
      exact Option.some_ne_none _
  | helped asked =>
      refine iff_of_false Nat.zero_ne_one ?_
      rintro (_ | ⟨unasked, _⟩ | ⟨saves, _⟩)
      · exact absurd asked (Bool.eq_false_iff.mp unasked)
      · exact absurd asked (Bool.eq_false_iff.mp saves.unhelped)
  | dumped unasked found asked =>
      refine iff_of_false Nat.zero_ne_one ?_
      rintro (_ | ⟨_, missing⟩ | ⟨saves, _⟩)
      · exact Option.some_ne_none _ (found.symm.trans missing)
      · exact absurd asked (Bool.eq_false_iff.mp saves.audited)
  | printed unasked found audited unnamed =>
      refine iff_of_false Nat.zero_ne_one ?_
      rintro (_ | ⟨_, missing⟩ | ⟨saves, _⟩)
      · exact Option.some_ne_none _ (found.symm.trans missing)
      · exact saves.named unnamed
  | saved saves found written =>
      refine iff_of_false Nat.zero_ne_one ?_
      rintro (_ | ⟨_, missing⟩ | ⟨_, refusal⟩)
      · exact Option.some_ne_none _ (found.symm.trans missing)
      · exact refusal (write_eq_ok_iff.mp written).1

variable (disk) (print : Json → Bytes) (environment : Option Bytes)
  (arguments : List Bytes)

theorem ending_run :
    Ending print fileSystem disk (Options.requested environment arguments)
      (disk.run print environment arguments) :=
  Session.ending_ofArguments print fileSystem disk environment arguments

/-- What the files hold has no part in whether a run fails. -/
theorem status_run_eq_of_samePaths {other : Disk} (same : SamePaths disk other) :
    (other.run print environment arguments).1.status =
      (disk.run print environment arguments).1.status := by
  have here := ending_run disk print environment arguments
  have there := ending_run other print environment arguments
  have alike : (disk.run print environment arguments).1.status = 1 ↔
      (other.run print environment arguments).1.status = 1 := by
    rw [status_eq_one_iff here, status_eq_one_iff there]
    exact ⟨same.fails, same.symm.fails⟩
  rcases here.status_cases with zero | one
  · rcases there.status_cases with otherZero | otherOne
    · rw [zero, otherZero]
    · rw [otherOne, alike.mpr otherOne]
  · rw [one, alike.mp one]

/--
A run is all or nothing. Its status is zero or one, and it is one exactly if the
arguments are misused, or the input is needed and cannot be read, or the report is to
be saved and cannot be written. With status one the run prints nothing and leaves the
disk as it was. With status zero it leaves the disk as it was unless the report is to
be saved, and then the report, in the format that was asked for, is in its file and all
other files are as they were. The status does not depend on what the files hold. All of
this is so whatever printer makes the text of a JSON value.
-/
theorem run_allOrNothing :
    ((disk.run print environment arguments).1.status = 0 ∨
        (disk.run print environment arguments).1.status = 1) ∧
      ((disk.run print environment arguments).1.status = 1 ↔
        Fails disk (Options.requested environment arguments)) ∧
      ((disk.run print environment arguments).1.status = 1 →
        (disk.run print environment arguments).1.output = [] ∧
          (disk.run print environment arguments).2 = disk) ∧
      ((disk.run print environment arguments).1.status = 0 →
        ∃ options, Options.requested environment arguments = .ok options ∧
          (¬ options.Saves → (disk.run print environment arguments).2 = disk) ∧
          (options.Saves →
            ∃ source format, disk.contents options.input = some source ∧
              selectedFormat environment arguments = some format ∧
              (disk.run print environment arguments).2 =
                disk.put options.output
                  (fileReport print format (audit (parse source).program)))) ∧
      ∀ other : Disk, SamePaths disk other →
        (other.run print environment arguments).1.status =
          (disk.run print environment arguments).1.status := by
  have ending := ending_run disk print environment arguments
  refine ⟨ending.status_cases, status_eq_one_iff ending, ending.of_failure, ?_, ?_⟩
  · intro succeeded
    obtain ⟨options, accepted, kept, saved⟩ := ending.of_success succeeded
    refine ⟨options, accepted, kept, fun saves => ?_⟩
    obtain ⟨source, found, written⟩ := saved saves
    exact ⟨source, options.format, found,
      Options.format_of_ofArguments accepted, (write_eq_ok_iff.mp written).2⟩
  · intro _ same
    exact status_run_eq_of_samePaths disk print environment arguments same

def oneFile (source : Bytes) : Disk where
  contents path := if path = "a.js" then some source else none
  refusal path := if path = "a.js" then none else some "Permission denied"

theorem oneFile_samePaths (source other : Bytes) :
    SamePaths (oneFile source) (oneFile other) where
  readable path := by
    unfold oneFile
    dsimp only
    split <;> simp
  writable _ := Iff.rfl

/-- The report may replace the input. Where it cannot be written, the notes of a
verbose run are all that is left of it, whatever the input holds. -/
theorem run_allOrNothing_ontoInput :
    ((oneFile "eval(x)").run Json.text (some "json")
          ["--verbose", "a.js", "-o", "a.js"]).2.contents "a.js" =
        some (Report.json (audit (parse "eval(x)").program)) ∧
      ((oneFile "eval(x)").run Json.text none
          ["--verbose", "a.js", "-o", "b.txt"]).2 =
        oneFile "eval(x)" ∧
      ∀ source, ((oneFile source).run Json.text none
        ["--verbose", "a.js", "-o", "b.txt"]).1.status = 1 := by
  obtain ⟨_, _, _, success, _⟩ := run_allOrNothing (oneFile "eval(x)")
    Json.text (some "json") ["--verbose", "a.js", "-o", "a.js"]
  obtain ⟨_, _, failure, _, alike⟩ := run_allOrNothing (oneFile "eval(x)")
    Json.text none ["--verbose", "a.js", "-o", "b.txt"]
  have failed : ((oneFile "eval(x)").run Json.text none
      ["--verbose", "a.js", "-o", "b.txt"]).1.status = 1 := by decide +kernel
  refine ⟨?_, (failure failed).2, fun source => ?_⟩
  · obtain ⟨options, accepted, _, saved⟩ := success (by decide +kernel)
    have asked : (Options.requested (some "json")
        ["--verbose", "a.js", "-o", "a.js"]).toOption =
      some ⟨false, true, false, "a.js", "a.js", .json⟩ := by decide +kernel
    rw [accepted] at asked
    obtain rfl := Option.some.inj asked
    obtain ⟨source, format, found, selected, written⟩ :=
      saved ⟨rfl, rfl, by decide⟩
    obtain rfl : _ = source := Option.some.inj found
    obtain rfl : Format.json = format :=
      Option.some.inj (.trans (by decide +kernel) selected)
    rw [written]
    exact contents_put_self
  · rw [alike _ (oneFile_samePaths _ source), failed]

end Disk

end ScriptAudit.Command
