/-
Sessions on any store of files, and how a run of the command ends there.

A store is known by what it answers. Whatever it answers, a run ends in one of
seven ways: it reads at most one file, and it writes at most one, as the last thing
that it does.
-/

import ScriptAudit.Command.Directory

namespace ScriptAudit.Command

/-- How files are read and written, over the states `σ` of a store. Writing gives the
state that it leads to, or the reason for a refusal. -/
structure FileSystem (σ : Type) where
  read : σ → Bytes → Option Bytes
  write : σ → Bytes → Bytes → Except Bytes σ

variable {σ : Type}

def Session.runOn (system : FileSystem σ) (state : σ) : Session → Outcome × σ
  | .exit outcome => (outcome, state)
  | .read path next => (next (system.read state path)).runOn system state
  | .write path contents next =>
      match system.write state path contents with
      | .ok changed => (next none).runOn system changed
      | .error reason => (next (some reason)).runOn system state

namespace Session

variable {system : FileSystem σ} {state changed : σ} {path contents : Bytes}

theorem runOn_write_ok (written : system.write state path contents = .ok changed)
    (next : Option Bytes → Session) :
    (Session.write path contents next).runOn system state =
      (next none).runOn system changed := by
  rw [runOn, written]

theorem runOn_write_error {reason : Bytes}
    (refused : system.write state path contents = .error reason)
    (next : Option Bytes → Session) :
    (Session.write path contents next).runOn system state =
      (next (some reason)).runOn system state := by
  rw [runOn, refused]

end Session

def Directory.fileSystem : FileSystem Directory where
  read := Directory.read
  write directory path contents :=
    (directory.write path contents).mapError Refusal.reason

theorem Session.run_eq_runOn (directory : Directory) (session : Session) :
    session.run directory = session.runOn Directory.fileSystem directory := by
  induction session generalizing directory with
  | exit outcome => rfl
  | read path next inductionHypothesis => exact inductionHypothesis _ directory
  | write path contents next inductionHypothesis =>
      cases answer : directory.write path contents with
      | ok changed =>
          have written : Directory.fileSystem.write directory path contents =
              .ok changed :=
            congrArg (Except.mapError Refusal.reason) answer
          rw [run, answer, runOn_write_ok written]
          exact inductionHypothesis none changed
      | error refusal =>
          have refused : Directory.fileSystem.write directory path contents =
              .error refusal.reason :=
            congrArg (Except.mapError Refusal.reason) answer
          rw [run, answer, runOn_write_error refused]
          exact inductionHypothesis (some refusal.reason) directory

def Options.requested (environment : Option Bytes) (arguments : List Bytes) :
    Except UsageError Options :=
  ofArguments (Format.ofEnvironment environment) arguments

structure Options.Saves (options : Options) : Prop where
  unhelped : options.help = false
  audited : options.tokens = false
  named : options.output ≠ []

/--
How a run ends and the state that it leaves, for the options that were asked for.
What stands in the messages is left open.
-/
inductive Ending (print : Json → Bytes) (system : FileSystem σ) (state : σ) :
    Except UsageError Options → Outcome × σ → Prop
  | misused {problem : UsageError} {messages : Bytes} :
      Ending print system state (.error problem) (⟨1, [], messages⟩, state)
  | helped {options : Options} {messages : Bytes}
      (asked : options.help = true) :
      Ending print system state (.ok options)
        (⟨0, Bytes.unlines helpLines, messages⟩, state)
  | unread {options : Options} {messages : Bytes}
      (unasked : options.help = false)
      (missing : system.read state options.input = none) :
      Ending print system state (.ok options) (⟨1, [], messages⟩, state)
  | dumped {options : Options} {source messages : Bytes}
      (unasked : options.help = false)
      (found : system.read state options.input = some source)
      (asked : options.tokens = true) :
      Ending print system state (.ok options)
        (⟨0, Report.tokenDump (tokenize source), messages⟩, state)
  | printed {options : Options} {source messages : Bytes}
      (unasked : options.help = false)
      (found : system.read state options.input = some source)
      (audited : options.tokens = false)
      (unnamed : options.output = []) :
      Ending print system state (.ok options)
        (⟨0, printedReport print options.format (audit (parse source).program),
          messages⟩, state)
  | refused {options : Options} {source messages reason : Bytes}
      (saves : options.Saves)
      (found : system.read state options.input = some source)
      (refusal : system.write state options.output
        (fileReport print options.format (audit (parse source).program)) =
          .error reason) :
      Ending print system state (.ok options) (⟨1, [], messages⟩, state)
  | saved {options : Options} {source messages : Bytes} {changed : σ}
      (saves : options.Saves)
      (found : system.read state options.input = some source)
      (written : system.write state options.output
        (fileReport print options.format (audit (parse source).program)) =
          .ok changed) :
      Ending print system state (.ok options)
        (⟨0, Bytes.unlines [savedLine options.output], messages⟩, changed)

namespace Session

variable {print : Json → Bytes} {system : FileSystem σ} {state : σ}
  {options : Options}

theorem ending_deliver {source : Bytes} (unasked : options.help = false)
    (found : system.read state options.input = some source)
    (audited : options.tokens = false) (messages : List Bytes) :
    Ending print system state (.ok options)
      ((deliver print options (audit (parse source).program) messages).runOn
        system state) := by
  unfold deliver
  split
  · rename_i unnamed
    exact .printed unasked found audited (List.isEmpty_iff.mp unnamed)
  · rename_i named
    have named : options.output ≠ [] := mt List.isEmpty_iff.mpr named
    cases answer : system.write state options.output
        (fileReport print options.format (audit (parse source).program)) with
    | ok changed =>
        rw [runOn_write_ok answer]
        exact .saved ⟨unasked, audited, named⟩ found answer
    | error reason =>
        rw [runOn_write_error answer]
        exact .refused ⟨unasked, audited, named⟩ found answer

theorem ending_analyze {source : Bytes} (unasked : options.help = false)
    (found : system.read state options.input = some source) :
    Ending print system state (.ok options)
      ((analyze print options source).runOn system state) := by
  unfold analyze
  split
  · rename_i asked
    exact .dumped unasked found asked
  · rename_i audited
    exact ending_deliver unasked found (Bool.eq_false_iff.mpr audited) _

theorem ending_ofOptions (options : Options) :
    Ending print system state (.ok options)
      ((ofOptions print options).runOn system state) := by
  unfold ofOptions
  split
  · rename_i asked
    exact .helped asked
  · rename_i unasked
    have unasked : options.help = false := Bool.eq_false_iff.mpr unasked
    rw [runOn]
    cases found : system.read state options.input with
    | none => exact .unread unasked found
    | some source => exact ending_analyze unasked found

/-- Every run ends in one of the seven ways. -/
theorem ending_ofArguments (print : Json → Bytes) (system : FileSystem σ)
    (state : σ) (environment : Option Bytes) (arguments : List Bytes) :
    Ending print system state (Options.requested environment arguments)
      ((ofArguments print environment arguments).runOn system state) := by
  unfold ofArguments Options.requested
  cases Options.ofArguments (Format.ofEnvironment environment) arguments with
  | error problem => exact .misused
  | ok options => exact ending_ofOptions options

end Session

theorem ending_run (environment : Option Bytes) (arguments : List Bytes)
    (directory : Directory) :
    Ending Json.text Directory.fileSystem directory
      (Options.requested (environment.map untilZero) (arguments.map untilZero))
      (run environment arguments directory) := by
  rw [run, Session.run_eq_runOn]
  exact Session.ending_ofArguments _ _ _ _ _

namespace Ending

variable {print : Json → Bytes} {system : FileSystem σ} {state : σ}
  {asked : Except UsageError Options} {result : Outcome × σ}

theorem status_cases (ending : Ending print system state asked result) :
    result.1.status = 0 ∨ result.1.status = 1 := by
  cases ending <;> simp

theorem of_failure (ending : Ending print system state asked result)
    (failed : result.1.status = 1) :
    result.1.output = [] ∧ result.2 = state := by
  cases ending with
  | misused | unread | refused => exact ⟨rfl, rfl⟩
  | helped | dumped | printed | saved => cases failed

theorem of_success (ending : Ending print system state asked result)
    (succeeded : result.1.status = 0) :
    ∃ options, asked = .ok options ∧
      (¬ options.Saves → result.2 = state) ∧
      (options.Saves →
        ∃ source, system.read state options.input = some source ∧
          system.write state options.output
            (fileReport print options.format (audit (parse source).program)) =
            .ok result.2) := by
  cases ending with
  | misused | unread | refused => cases succeeded
  | @helped options _ asked =>
      refine ⟨options, rfl, fun _ => rfl, fun saves => ?_⟩
      rw [saves.unhelped] at asked
      cases asked
  | @dumped options _ _ unasked found asked =>
      refine ⟨options, rfl, fun _ => rfl, fun saves => ?_⟩
      rw [saves.audited] at asked
      cases asked
  | @printed options _ _ unasked found audited unnamed =>
      exact ⟨options, rfl, fun _ => rfl, fun saves => absurd unnamed saves.named⟩
  | @saved options source _ changed saves found written =>
      exact ⟨options, rfl, fun unsaved => absurd saves unsaved,
        fun _ => ⟨source, found, written⟩⟩

end Ending

end ScriptAudit.Command
