/-
A verbose run says more and does the same.

Two sessions are compared step by step: they ask for the same files, in the same
order, and end with the same status and the same output, and one has all of the
messages of the other at the end of its own. What holds step by step holds of the runs
on any store.
-/

import ScriptAudit.Proofs.Command.Arguments
import ScriptAudit.Proofs.Command.Running

namespace ScriptAudit.Command

/-- The first session asks for what the second asks for, whatever the answers are, and
ends in the same way with fewer messages. -/
inductive Session.Quieter : Session → Session → Prop
  | exit {status : Nat} {output quiet loud : Bytes} (ends : quiet <:+ loud) :
      Quieter (.exit ⟨status, output, quiet⟩) (.exit ⟨status, output, loud⟩)
  | read {path : Bytes} {quiet loud : Option Bytes → Session}
      (next : ∀ answer, Quieter (quiet answer) (loud answer)) :
      Quieter (.read path quiet) (.read path loud)
  | write {path contents : Bytes} {quiet loud : Option Bytes → Session}
      (next : ∀ answer, Quieter (quiet answer) (loud answer)) :
      Quieter (.write path contents quiet) (.write path contents loud)

/-- The first run ends as the second does, and all of its messages stand at the end of
those of the second. -/
structure QuieterRun {σ : Type} (quiet loud : Outcome × σ) : Prop where
  status : quiet.1.status = loud.1.status
  output : quiet.1.output = loud.1.output
  state : quiet.2 = loud.2
  messages : quiet.1.messages <:+ loud.1.messages

namespace Session

/-- The run of a quieter session is quieter, since the store gives both the same
answers. -/
theorem Quieter.runOn {σ : Type} {quiet loud : Session}
    (quieter : Quieter quiet loud) (system : FileSystem σ) (state : σ) :
    QuieterRun (quiet.runOn system state) (loud.runOn system state) := by
  induction quieter generalizing state with
  | exit ends => exact ⟨rfl, rfl, rfl, ends⟩
  | read next inductionHypothesis => exact inductionHypothesis _ state
  | @write path contents _ _ next inductionHypothesis =>
      cases answer : system.write state path contents with
      | ok changed =>
          rw [runOn_write_ok answer, runOn_write_ok answer]
          exact inductionHypothesis none changed
      | error reason =>
          rw [runOn_write_error answer, runOn_write_error answer]
          exact inductionHypothesis (some reason) state

end Session

theorem unlines_suffix {quiet loud : List Bytes} (ends : quiet <:+ loud) :
    Bytes.unlines quiet <:+ Bytes.unlines loud := by
  obtain ⟨front, rfl⟩ := ends
  exact ⟨Bytes.unlines front, List.flatMap_append.symm⟩

theorem notes_suffix (options : Options) (lines : List Bytes) :
    notes options lines <:+ notes options.verbosely lines := by
  change (if options.verbose then lines else []) <:+ lines
  split
  · exact List.suffix_rfl
  · exact List.nil_suffix

namespace Session

variable {quiet loud : List Bytes} (print : Json → Bytes)

theorem succeed_quieter (output : Bytes) (ends : quiet <:+ loud) :
    Quieter (succeed output quiet) (succeed output loud) :=
  .exit (unlines_suffix ends)

theorem fail_quieter (ends : quiet <:+ loud) :
    Quieter (fail quiet) (fail loud) :=
  .exit (unlines_suffix ends)

theorem deliver_quieter (options : Options) (findings : List Finding)
    (ends : quiet <:+ loud) :
    Quieter (deliver print options findings quiet)
      (deliver print options.verbosely findings loud) := by
  change Quieter _ (deliver print options findings loud)
  unfold deliver
  split
  · exact succeed_quieter _ ends
  · refine .write fun answer => ?_
    cases answer with
    | none => exact succeed_quieter _ ends
    | some reason =>
        obtain ⟨front, rfl⟩ := ends
        exact fail_quieter ⟨front, (List.append_assoc _ _ _).symm⟩

theorem analyze_quieter (options : Options) (source : Bytes) :
    Quieter (analyze print options source)
      (analyze print options.verbosely source) := by
  unfold analyze
  change Quieter (if options.tokens then _ else _)
    (if options.tokens then _ else _)
  split
  · exact succeed_quieter _ (notes_suffix options _)
  · exact deliver_quieter print options _ (notes_suffix options _)

theorem ofOptions_quieter (options : Options) :
    Quieter (ofOptions print options) (ofOptions print options.verbosely) := by
  unfold ofOptions
  change Quieter (if options.help then _ else _) (if options.help then _ else _)
  split
  · exact succeed_quieter _ List.suffix_rfl
  · refine .read fun answer => ?_
    cases answer with
    | none => exact fail_quieter List.suffix_rfl
    | some source => exact analyze_quieter print options source

theorem ofArguments_quieter {environment : Option Bytes} {front : List Bytes}
    (settled : ¬ Options.AwaitsValue
      (Options.initial (Format.ofEnvironment environment)) front)
    (back : List Bytes) :
    Quieter (ofArguments print environment (front ++ back))
      (ofArguments print environment
        (front ++ Bytes.ofString "--verbose" :: back)) := by
  unfold ofArguments
  rw [Options.ofArguments_insert_verbose settled]
  cases Options.ofArguments (Format.ofEnvironment environment)
      (front ++ back) with
  | error problem => exact fail_quieter List.suffix_rfl
  | ok options => exact ofOptions_quieter print options

end Session

/--
Asking for a verbose run changes nothing but the messages. Wherever `--verbose` is
put among the arguments, other than behind an option that still waits for its value,
and whatever store and printer the command runs with, the run has the same status,
the same output and the same effect on the store, and its messages end with those of
the run without it.
-/
theorem runOn_insert_verbose {σ : Type} (print : Json → Bytes)
    (system : FileSystem σ) (state : σ) (environment : Option Bytes)
    (front back : List Bytes)
    (settled : ¬ Options.AwaitsValue
      (Options.initial (Format.ofEnvironment environment)) front) :
    QuieterRun
      ((Session.ofArguments print environment (front ++ back)).runOn system state)
      ((Session.ofArguments print environment
        (front ++ Bytes.ofString "--verbose" :: back)).runOn system state) :=
  (Session.ofArguments_quieter print settled back).runOn system state

/-- A report is saved under a name that looks like an option: the last argument is a
value and does not wait for one. -/
theorem runOn_insert_verbose_afterValue :
    ¬ Options.AwaitsValue (Options.initial .text) ["a.js", "-o", "--output"] ∧
      QuieterRun
        (run none ["a.js", "-o", "--output"] ⟨[("a.js", "eval(x")]⟩)
        (run none ["a.js", "-o", "--output", "--verbose"]
          ⟨[("a.js", "eval(x")]⟩) := by
  have scanned : (Options.scan (Options.initial .text)
      ["a.js", "-o", "--output"]).toOption ≠ none := by decide +kernel
  have settled : ¬ Options.AwaitsValue (Options.initial .text)
      ["a.js", "-o", "--output"] := by
    rintro (waiting | waiting)
    · exact scanned (congrArg Except.toOption waiting)
    · exact scanned (congrArg Except.toOption waiting)
  refine ⟨settled, ?_⟩
  have quieter := runOn_insert_verbose Json.text Directory.fileSystem
    ⟨[("a.js", "eval(x")]⟩ none ["a.js", "-o", "--output"] [] settled
  rw [← Session.run_eq_runOn, ← Session.run_eq_runOn] at quieter
  have plain : List.map untilZero ["a.js", "-o", "--output"] =
      (["a.js", "-o", "--output"] : List Bytes) := by decide +kernel
  have verbose : List.map untilZero ["a.js", "-o", "--output", "--verbose"] =
      (["a.js", "-o", "--output", "--verbose"] : List Bytes) := by decide +kernel
  rw [run, run, plain, verbose]
  exact quieter

end ScriptAudit.Command
