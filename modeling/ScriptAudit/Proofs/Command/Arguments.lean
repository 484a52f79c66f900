/-
Arguments as settings. A list of arguments is read from the left as flags, options
with the argument after them, and paths; an option at the end may be left without
its value. The scan of the arguments applies these settings one after another and
stops at the first that cannot be applied.
-/

import ScriptAudit.Command.Options

namespace ScriptAudit.Command

/-- What one flag, one option with its value, or one other argument asks for. -/
inductive Setting where
  | help
  | verbose
  | tokens
  | format (name : Bytes)
  | output (path : Bytes)
  | input (path : Bytes)
  deriving DecidableEq

namespace Setting

def apply (options : Options) : Setting → Except UsageError Options
  | help => .ok { options with help := true }
  | verbose => .ok { options with verbose := true }
  | tokens => .ok { options with tokens := true }
  | format name =>
      match Format.ofName? name with
      | none => .error (.invalidFormat name)
      | some selected => .ok { options with format := selected }
  | output path => .ok { options with output := path }
  | input path => options.addInput path

def formatName? : Setting → Option Bytes
  | format name => some name
  | _ => none

end Setting

/-- An argument alone asks for a setting, or it takes the next argument. -/
inductive Form where
  | alone (setting : Setting)
  | valued (setting : Bytes → Setting) (missing : UsageError)

def Form.ofArgument (argument : Bytes) : Form :=
  if argument = "-h" ∨ argument = "--help" then .alone .help
  else if argument = "--verbose" then .alone .verbose
  else if argument = "--tokens" then .alone .tokens
  else if argument = "--format" then .valued .format .missingFormat
  else if argument = "-o" ∨ argument = "--output" then
    .valued .output .missingOutput
  else .alone (.input argument)

/-- The settings of a list of arguments, and the complaint about an option at its
end that has no value. -/
structure Reading where
  settings : List Setting
  missing : Option UsageError

namespace Reading

def cons (setting : Setting) (reading : Reading) : Reading :=
  { reading with settings := setting :: reading.settings }

def ofArguments : List Bytes → Reading
  | [] => ⟨[], none⟩
  | argument :: rest =>
      match Form.ofArgument argument with
      | .alone setting => cons setting (ofArguments rest)
      | .valued setting missing =>
          match rest with
          | [] => ⟨[], some missing⟩
          | value :: others => cons (setting value) (ofArguments others)

def finish (missing : Option UsageError) (options : Options) :
    Except UsageError Options :=
  match missing with
  | none => .ok options
  | some problem => .error problem

def apply (options : Options) (reading : Reading) : Except UsageError Options :=
  (reading.settings.foldlM Setting.apply options).bind (finish reading.missing)

theorem apply_cons (options : Options) (setting : Setting) (reading : Reading) :
    apply options (cons setting reading) =
      (setting.apply options).bind fun changed => apply changed reading := by
  unfold apply
  rw [cons, List.foldlM_cons]
  cases setting.apply options <;> rfl

end Reading

namespace Options

theorem scan_cons (options : Options) (argument : Bytes) (rest : List Bytes) :
    scan options (argument :: rest) =
      match Form.ofArgument argument with
      | .alone setting =>
          (setting.apply options).bind fun changed => scan changed rest
      | .valued setting missing =>
          match rest with
          | [] => .error missing
          | value :: others =>
              ((setting value).apply options).bind fun changed =>
                scan changed others := by
  rw [scan.eq_def]
  unfold Form.ofArgument
  dsimp only
  split
  · rfl
  split
  · rfl
  split
  · rfl
  split
  · cases rest with
    | nil => rfl
    | cons value others =>
        dsimp only [Setting.apply]
        cases Format.ofName? value <;> rfl
  split
  · cases rest <;> rfl
  · dsimp only [Setting.apply]
    cases options.addInput argument <;> rfl

/-- The scan applies the settings that are read. -/
theorem scan_eq_apply (options : Options) (arguments : List Bytes) :
    scan options arguments =
      Reading.apply options (Reading.ofArguments arguments) := by
  fun_induction Reading.ofArguments arguments generalizing options with
  | case1 => rfl
  | case2 argument rest setting alone inductionHypothesis =>
      rw [scan_cons, alone, Reading.apply_cons]
      simp only [inductionHypothesis]
  | case3 argument setting missing valued =>
      rw [scan_cons, valued]
      rfl
  | case4 argument setting missing valued value others inductionHypothesis =>
      rw [scan_cons, valued, Reading.apply_cons]
      simp only [inductionHypothesis]

end Options

namespace Reading

/-- Behind arguments that leave no option without its value, the others are read
as if they stood alone. -/
theorem ofArguments_append {front : List Bytes}
    (complete : (ofArguments front).missing = none) (back : List Bytes) :
    ofArguments (front ++ back) =
      ⟨(ofArguments front).settings ++ (ofArguments back).settings,
        (ofArguments back).missing⟩ := by
  fun_induction ofArguments front with
  | case1 => rfl
  | case2 argument rest setting alone inductionHypothesis =>
      rw [List.cons_append, ofArguments, alone]
      exact congrArg (cons setting) (inductionHypothesis complete)
  | case3 argument setting missing valued => cases complete
  | case4 argument setting missing valued value others inductionHypothesis =>
      rw [List.cons_append, List.cons_append, ofArguments, valued]
      exact congrArg (cons (setting value)) (inductionHypothesis complete)

theorem settings_prefix (front back : List Bytes) :
    (ofArguments front).settings <+: (ofArguments (front ++ back)).settings := by
  fun_induction ofArguments front with
  | case1 => exact List.nil_prefix
  | case2 argument rest setting alone inductionHypothesis =>
      rw [List.cons_append, ofArguments, alone]
      exact (List.prefix_cons_inj setting).mpr inductionHypothesis
  | case3 argument setting missing valued => exact List.nil_prefix
  | case4 argument setting missing valued value others inductionHypothesis =>
      rw [List.cons_append, List.cons_append, ofArguments, valued]
      exact (List.prefix_cons_inj (setting value)).mpr inductionHypothesis

theorem missing_cases {arguments : List Bytes} {problem : UsageError}
    (incomplete : (ofArguments arguments).missing = some problem) :
    problem = .missingFormat ∨ problem = .missingOutput := by
  fun_induction ofArguments arguments with
  | case1 => cases incomplete
  | case2 argument rest setting alone inductionHypothesis =>
      exact inductionHypothesis incomplete
  | case3 argument setting missing valued =>
      cases incomplete
      unfold Form.ofArgument at valued
      repeat' split at valued
      all_goals cases valued
      · exact .inl rfl
      · exact .inr rfl
  | case4 argument setting missing valued value others inductionHypothesis =>
      exact inductionHypothesis incomplete

end Reading

namespace Options

/-- The arguments end in an option that is still waiting for its value when they
are scanned. -/
def AwaitsValue (options : Options) (arguments : List Bytes) : Prop :=
  scan options arguments = .error .missingFormat ∨
    scan options arguments = .error .missingOutput

theorem scan_append {options : Options} {front : List Bytes}
    (settled : ¬ AwaitsValue options front) (back : List Bytes) :
    scan options (front ++ back) =
      (scan options front).bind fun middle => scan middle back := by
  simp only [AwaitsValue, scan_eq_apply] at settled ⊢
  unfold Reading.apply at settled ⊢
  cases complete : (Reading.ofArguments front).missing with
  | none =>
      rw [Reading.ofArguments_append complete, List.foldlM_append]
      cases List.foldlM Setting.apply options
        (Reading.ofArguments front).settings <;> rfl
  | some problem =>
      cases applied : List.foldlM Setting.apply options
          (Reading.ofArguments front).settings with
      | ok result =>
          rw [complete, applied] at settled
          rcases Reading.missing_cases complete with rfl | rfl
          · exact absurd (.inl rfl) settled
          · exact absurd (.inr rfl) settled
      | error early =>
          obtain ⟨more, longer⟩ := Reading.settings_prefix front back
          rw [← longer, List.foldlM_append, applied]
          rfl

end Options

/-! ### The option for a verbose run -/

def Options.verbosely (options : Options) : Options :=
  { options with verbose := true }

theorem Setting.apply_verbosely (options : Options) (setting : Setting) :
    apply options.verbosely setting =
      (apply options setting).map Options.verbosely := by
  cases setting with
  | format name =>
      dsimp only [apply]
      cases Format.ofName? name <;> rfl
  | input path =>
      dsimp only [apply, Options.addInput, Options.verbosely]
      split
      · rfl
      split <;> rfl
  | _ => rfl

theorem Reading.apply_verbosely (options : Options) (reading : Reading) :
    apply options.verbosely reading =
      (apply options reading).map Options.verbosely := by
  obtain ⟨settings, missing⟩ := reading
  induction settings generalizing options with
  | nil => cases missing <;> rfl
  | cons setting rest inductionHypothesis =>
      change apply options.verbosely (cons setting ⟨rest, missing⟩) =
        (apply options (cons setting ⟨rest, missing⟩)).map Options.verbosely
      rw [apply_cons, apply_cons, Setting.apply_verbosely]
      cases setting.apply options with
      | error problem => rfl
      | ok changed => exact inductionHypothesis changed

namespace Options

/-- No other argument looks at whether the run is to be verbose. -/
theorem scan_insert_verbose {options : Options} {front : List Bytes}
    (settled : ¬ AwaitsValue options front) (back : List Bytes) :
    scan options (front ++ Bytes.ofString "--verbose" :: back) =
      (scan options (front ++ back)).map verbosely := by
  rw [scan_append settled, scan_append settled]
  cases scan options front with
  | error problem => rfl
  | ok middle =>
      have step : scan middle (Bytes.ofString "--verbose" :: back) =
          scan middle.verbosely back :=
        scan_cons middle _ back
      change scan middle (Bytes.ofString "--verbose" :: back) =
        (scan middle back).map verbosely
      rw [step, scan_eq_apply, scan_eq_apply, Reading.apply_verbosely]

theorem ofArguments_insert_verbose {format : Format} {front : List Bytes}
    (settled : ¬ AwaitsValue (initial format) front) (back : List Bytes) :
    ofArguments format (front ++ Bytes.ofString "--verbose" :: back) =
      (ofArguments format (front ++ back)).map verbosely := by
  unfold ofArguments
  rw [scan_insert_verbose settled]
  cases scan (initial format) (front ++ back) with
  | error problem => rfl
  | ok options =>
      dsimp only [Except.map, check, verbosely]
      split <;> rfl

end Options

/-! ### The selected format -/

def formatAfter (names : List Bytes) (default : Format) : Option Format :=
  match names.getLast? with
  | some name => Format.ofName? name
  | none => some default

theorem formatAfter_cons {name : Bytes} {selected : Format}
    (known : Format.ofName? name = some selected) (names : List Bytes)
    (default : Format) :
    formatAfter (name :: names) default = formatAfter names selected := by
  unfold formatAfter
  rw [List.getLast?_cons]
  cases names.getLast? with
  | none => exact known
  | some last => rfl

def formatNames (arguments : List Bytes) : List Bytes :=
  (Reading.ofArguments arguments).settings.filterMap Setting.formatName?

/-- The last format that arguments ask for; if none, that of the environment. -/
def selectedFormat (environment : Option Bytes) (arguments : List Bytes) :
    Option Format :=
  formatAfter (formatNames arguments) (Format.ofEnvironment environment)

/-- A setting that can be applied leaves the format, or names a known one. -/
theorem Setting.formatAfter_apply {options changed : Options}
    {setting : Setting} (applied : setting.apply options = .ok changed)
    (rest : List Setting) :
    formatAfter ((setting :: rest).filterMap formatName?) options.format =
      formatAfter (rest.filterMap formatName?) changed.format := by
  cases setting with
  | format name =>
      dsimp only [apply] at applied
      split at applied
      · cases applied
      · rename_i selected known
        cases applied
        exact formatAfter_cons known _ _
  | input path =>
      dsimp only [apply, Options.addInput] at applied
      split at applied
      · cases applied
      split at applied
      · cases applied
        rfl
      · cases applied
  | _ =>
      cases applied
      rfl

theorem Reading.formatAfter_apply {options result : Options}
    {reading : Reading} (applied : apply options reading = .ok result) :
    formatAfter (reading.settings.filterMap Setting.formatName?)
        options.format =
      some result.format := by
  obtain ⟨settings, missing⟩ := reading
  induction settings generalizing options with
  | nil =>
      cases missing <;> cases applied
      rfl
  | cons setting rest inductionHypothesis =>
      change apply options (cons setting ⟨rest, missing⟩) = _ at applied
      rw [apply_cons] at applied
      cases first : setting.apply options with
      | error problem =>
          rw [first] at applied
          cases applied
      | ok changed =>
          rw [first] at applied
          exact (Setting.formatAfter_apply first rest).trans
            (inductionHypothesis applied)

theorem Options.format_of_ofArguments {environment : Option Bytes}
    {arguments : List Bytes} {options : Options}
    (accepted : ofArguments (Format.ofEnvironment environment) arguments =
      .ok options) :
    selectedFormat environment arguments = some options.format := by
  unfold ofArguments at accepted
  split at accepted
  · cases accepted
  · rename_i scanned result
    rw [scan_eq_apply] at result
    unfold check at accepted
    split at accepted
    · cases accepted
    · cases accepted
      exact Reading.formatAfter_apply result

end ScriptAudit.Command
