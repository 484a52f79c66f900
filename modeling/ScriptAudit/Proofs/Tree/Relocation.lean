/-
Relocation: tokens and trees with every place in them moved by one function.
Two trees that differ in their places only have the same image under the
function that moves every place to the start.
-/

import ScriptAudit.Grammar.Program

namespace ScriptAudit

variable (move : Position → Position)

def Token.relocate (token : Token) : Token :=
  { token with position := move token.position }

def Identifier.relocate (identifier : Identifier) : Identifier :=
  { identifier with position := move identifier.position }

def Literal.relocate (literal : Literal) : Literal :=
  { literal with position := move literal.position }

mutual

def Expr.relocate : Expr → Expr
  | .identifier identifier => .identifier (identifier.relocate move)
  | .literal literal => .literal (literal.relocate move)
  | .binary operator left right position =>
      .binary operator left.relocate right.relocate (move position)
  | .unary operator fixity operand position =>
      .unary operator fixity operand.relocate (move position)
  | .assignment operator target value position =>
      .assignment operator target.relocate value.relocate (move position)
  | .call callee arguments position =>
      .call callee.relocate (Expr.relocateAll arguments) (move position)
  | .member object property computed position =>
      .member object.relocate property.relocate computed (move position)
  | .array elements position =>
      .array (Expr.relocateAll elements) (move position)
  | .object properties position =>
      .object (Property.relocateAll properties) (move position)

def Expr.relocateAll : List Expr → List Expr
  | [] => []
  | value :: others => value.relocate :: Expr.relocateAll others

def Property.relocate : Property → Property
  | .entry key value position =>
      .entry key.relocate value.relocate (move position)

def Property.relocateAll : List Property → List Property
  | [] => []
  | entry :: others => entry.relocate :: Property.relocateAll others

end

theorem Expr.relocateAll_eq_map (values : List Expr) :
    Expr.relocateAll move values = values.map (Expr.relocate move) := by
  induction values with
  | nil => rfl
  | cons value others inductionHypothesis =>
      rw [relocateAll, inductionHypothesis, List.map_cons]

theorem Property.relocateAll_eq_map (entries : List Property) :
    Property.relocateAll move entries =
      entries.map (Property.relocate move) := by
  induction entries with
  | nil => rfl
  | cons entry others inductionHypothesis =>
      rw [relocateAll, inductionHypothesis, List.map_cons]

@[simp] theorem Expr.position_relocate (value : Expr) :
    (value.relocate move).position = move value.position := by
  cases value <;> rfl

def Declarator.relocate (declarator : Declarator) : Declarator :=
  { identifier := declarator.identifier.relocate move
    init := declarator.init.map (Expr.relocate move)
    position := move declarator.position }

mutual

def Statement.relocate : Statement → Statement
  | .declaration keyword declarators position =>
      .declaration keyword (declarators.map (Declarator.relocate move))
        (move position)
  | .function identifier parameters body bodyPosition position =>
      .function (identifier.relocate move)
        (parameters.map (Identifier.relocate move))
        (Statement.relocateAll body) (move bodyPosition) (move position)
  | .block body position =>
      .block (Statement.relocateAll body) (move position)
  | .expression value position =>
      .expression (value.relocate move) (move position)
  | .returning argument position =>
      .returning (argument.map (Expr.relocate move)) (move position)
  | .ifThen test consequent position =>
      .ifThen (test.relocate move) consequent.relocate (move position)
  | .ifElse test consequent alternate position =>
      .ifElse (test.relocate move) consequent.relocate alternate.relocate
        (move position)
  | .loop kind body position => .loop kind body.relocate (move position)

def Statement.relocateAll : List Statement → List Statement
  | [] => []
  | content :: others => content.relocate :: Statement.relocateAll others

end

theorem Statement.relocateAll_eq_map (contents : List Statement) :
    Statement.relocateAll move contents =
      contents.map (Statement.relocate move) := by
  induction contents with
  | nil => rfl
  | cons content others inductionHypothesis =>
      rw [relocateAll, inductionHypothesis, List.map_cons]

def Program.relocate (program : Program) : Program :=
  ⟨program.body.map (Statement.relocate move)⟩

def Diagnostic.relocate (diagnostic : Diagnostic) : Diagnostic :=
  { diagnostic with found := diagnostic.found.relocate move }

def Parsed.relocate (parsed : Parsed) : Parsed :=
  { program := parsed.program.relocate move
    diagnostics := parsed.diagnostics.map (Diagnostic.relocate move) }

/-! ### Messages -/

namespace Diagnostic

def location (position : Position) : Bytes :=
  Bytes.decimal position.line ++ ":" ++ Bytes.decimal position.column

def wording (diagnostic : Diagnostic) : Bytes :=
  let asked : Bytes :=
    match diagnostic.problem with
    | .expected expectation => "Expected " ++ expectation.name ++ ", got "
    | .unexpected => "Unexpected token "
  asked ++ diagnostic.found.kind.name ++ "(" ++ diagnostic.found.lexeme
    ++ ") at line "

theorem message_eq (diagnostic : Diagnostic) :
    diagnostic.message =
      diagnostic.wording ++ location diagnostic.position := by
  obtain ⟨problem, found⟩ := diagnostic
  cases problem <;>
    simp only [message, wording, describe, location, position,
      List.append_assoc]

/-- Only the place at the end of a message moves. -/
theorem message_relocate (diagnostic : Diagnostic) :
    (diagnostic.relocate move).message =
      diagnostic.wording ++ location (move diagnostic.position) :=
  message_eq (diagnostic.relocate move)

end Diagnostic

namespace Token

@[simp] theorem relocate_kind (token : Token) :
    (token.relocate move).kind = token.kind :=
  rfl

@[simp] theorem relocate_lexeme (token : Token) :
    (token.relocate move).lexeme = token.lexeme :=
  rfl

@[simp] theorem relocate_position (token : Token) :
    (token.relocate move).position = move token.position :=
  rfl

end Token

namespace Grammar

theorem literal?_relocate (token : Token) :
    literal? (token.relocate move) =
      (literal? token).map (Literal.relocate move) := by
  unfold literal?
  rw [Option.map_map]
  rfl

end Grammar

end ScriptAudit
