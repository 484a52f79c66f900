/-
Productions: the rules of a grammar as values. A production looks at the next
token or reads it, and goes on as what it has seen demands, until it returns a
value or fails with a problem. From what the tokens come is left open, so one
production can be carried out on different holders of tokens. The one that
programs are read from is a list; the end of the list stands for the end of the
source.

Loops carry a budget. It is enough that the budget exceeds the number of tokens
left, because every round of a loop reads a token.
-/

import ScriptAudit.Grammar.Diagnostic

namespace ScriptAudit.Grammar

inductive Production : Type → Type 1 where
  | done {α : Type} (value : α) : Production α
  | fail {α : Type} (problem : Problem) : Production α
  /-- A loop or a recursion goes on when its budget is spent. -/
  | exhausted {α : Type} : Production α
  /-- The next token, if one is left. Nothing is read. -/
  | peek : Production (Option Token)
  /-- Reads the next token, if one is left. -/
  | advance : Production Unit
  /-- A production that is made when it is called for. -/
  | delayed {α : Type} (production : Unit → Production α) : Production α
  /-- What is returned has to have a token of its own. -/
  | advancing {α : Type} (production : Production α) : Production α
  | andThen {α β : Type} (first : Production α) (next : α → Production β) :
      Production β

/-- What a list holds for a production: a value and the tokens after it, or a
problem and the tokens from the offending one on. -/
inductive Reply (α : Type) where
  | accept (value : α) (rest : List Token)
  | reject (problem : Problem) (rest : List Token)

namespace Reply

def rest {α : Type} : Reply α → List Token
  | accept _ rest => rest
  | reject _ rest => rest

def bind {α β : Type} (reply : Reply α) (next : α → List Token → Reply β) :
    Reply β :=
  match reply with
  | accept value rest => next value rest
  | reject problem rest => reject problem rest

end Reply

namespace Production

instance : Monad Production where
  pure value := done value
  bind first next := andThen first next

def reply : {α : Type} → Production α → List Token → Reply α
  | _, done value, tokens => .accept value tokens
  | _, fail problem, tokens => .reject problem tokens
  | _, exhausted, tokens => .reject .unexpected tokens
  | _, peek, tokens => .accept tokens.head? tokens
  | _, advance, tokens => .accept () tokens.tail
  | _, delayed production, tokens => (production ()).reply tokens
  | _, advancing production, tokens => production.reply tokens
  | _, andThen first next, tokens =>
      (first.reply tokens).bind fun value => (next value).reply

instance {α : Type} : CoeFun (Production α) fun _ => List Token → Reply α :=
  ⟨reply⟩

@[simp] theorem pure_apply {α : Type} (value : α) (tokens : List Token) :
    (pure value : Production α) tokens = .accept value tokens :=
  rfl

@[simp] theorem bind_apply {α β : Type} (production : Production α)
    (next : α → Production β) (tokens : List Token) :
    (production >>= next) tokens =
      (production tokens).bind fun value => next value :=
  rfl

@[simp] theorem advancing_apply {α : Type} (production : Production α)
    (tokens : List Token) : advancing production tokens = production tokens :=
  rfl

/-! ### Single tokens -/

/-- Goes on as the next token demands, or as the end does. -/
def onNext {α : Type} (ended : Production α) (found : Token → Production α) :
    Production α := do
  match ← peek with
  | none => ended
  | some token => found token

@[simp] theorem onNext_nil {α : Type} (ended : Production α)
    (found : Token → Production α) : onNext ended found [] = ended [] :=
  rfl

@[simp] theorem onNext_cons {α : Type} (ended : Production α)
    (found : Token → Production α) (token : Token) (rest : List Token) :
    onNext ended found (token :: rest) = found token (token :: rest) :=
  rfl

/-- A value for which the next token is read. -/
def taking {α : Type} (value : α) : Production α := do
  advance
  return value

@[simp] theorem taking_cons {α : Type} (value : α) (token : Token)
    (rest : List Token) : taking value (token :: rest) = .accept value rest :=
  rfl

/-- The next token if it passes the test, read; otherwise nothing. -/
def readIf (test : Token → Bool) : Production (Option Token) :=
  onNext (return none) fun token =>
    if test token then taking (some token) else return none

def sees (kind : Token.Kind) : Production Bool := do
  let next ← peek
  return next.any fun token => token.kind == kind

def seesEnd : Production Bool := do
  let next ← peek
  return next.isNone

/-- Whether the next token is of a kind; if so it is read. -/
def skips (kind : Token.Kind) : Production Bool := do
  let token ← readIf fun token => token.kind == kind
  return token.isSome

def expect (kind : Token.Kind) : Production Token :=
  onNext (fail (.expected (.token kind))) fun token =>
    if token.kind = kind then taking token
    else fail (.expected (.token kind))

/-! ### Repetition -/

/-- Goes on from a value as long as the next token calls for a further step. -/
def extend {α : Type} (continues : Token → Bool)
    (step : α → Token → Production α) : (budget : Nat) → α → Production α
  | 0, _ => exhausted
  | budget + 1, value => do
      match ← readIf continues with
      | none => return value
      | some token =>
          let extended ← step value token
          extend continues step budget extended

/-- One item or more, with commas between them. -/
def separated {α : Type} (item : Production α) :
    (budget : Nat) → Production (List α)
  | 0 => exhausted
  | budget + 1 => do
      let first ← item
      if ← skips .comma then
        let others ← separated item budget
        return first :: others
      else
        return [first]

/-- Any number of items with commas between them, and the closing token. -/
def enclosed {α : Type} (budget : Nat) (close : Token.Kind)
    (item : Production α) : Production (List α) := do
  let items ← if ← sees close then pure [] else separated item budget
  let _ ← expect close
  return items

/-- Items up to a closing token or the end, neither of which is read. -/
def itemsUntil {α : Type} (close : Token.Kind) (item : Production α) :
    (budget : Nat) → Production (List α)
  | 0 => exhausted
  | budget + 1 => do
      if (← sees close) || (← seesEnd) then
        return []
      else
        let first ← item
        let others ← itemsUntil close item budget
        return first :: others

end Production

end ScriptAudit.Grammar
