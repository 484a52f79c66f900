/-
Productions over a token vector and a cursor into it.

A list that is taken apart cannot help but end, and there is nothing to index.
The readers below hold the whole vector, what follows the first end-of-file token
included, and a cursor that only `step` moves. Whatever could go wrong with such a
cursor is a fault of its own: a token asked for outside the vector or beyond the
first end-of-file token, a node returned or a round of the statement loop finished
with the cursor where it was, a loop or a recursion that is not over when its fuel
is.

Every production is followed by a reader, which takes the same decisions. That no
fault ever arises, and that readers and productions say the same, is the subject
of the module on progress.
-/

import ScriptAudit.Grammar.Program

namespace ScriptAudit

/-- The tokens that carry meaning. If the last of them does not end the file, a
token at its place does. -/
def Token.closed (all : List Token) : List Token :=
  let significant := all.filter fun token => !token.kind.isTrivia
  if significant.getLast?.any Stream.isFinish then significant
  else
    significant ++
      [finish ((significant.getLast?.map Token.position).getD .start)]

namespace Grammar.Cursor

/-- No token under the cursor, a place beyond the first end-of-file token, no move
where one is due, or no fuel left. -/
inductive Fault where
  | outOfRange
  | pastFinish
  | standstill
  | exhausted
  deriving DecidableEq

/-- What a reader comes to. A refusal shows the token it was made at. -/
inductive Motion (α : Type) where
  | returns (value : α) (cursor : Nat)
  | refuses (diagnostic : Diagnostic) (cursor : Nat)
  | faults (fault : Fault)

def Reader (α : Type) : Type :=
  (vector : List Token) → (cursor : Nat) → Motion α

def Motion.bind {α β : Type} (motion : Motion α) (next : α → Nat → Motion β) :
    Motion β :=
  match motion with
  | returns value cursor => next value cursor
  | refuses diagnostic cursor => refuses diagnostic cursor
  | faults fault => faults fault

@[simp] theorem Motion.bind_returns {α β : Type} (value : α) (cursor : Nat)
    (next : α → Nat → Motion β) :
    (returns value cursor).bind next = next value cursor :=
  rfl

instance : Monad Reader where
  pure value := fun _ cursor => .returns value cursor
  bind reader next := fun vector cursor =>
    (reader vector cursor).bind fun value => next value vector

@[simp] theorem pure_apply {α : Type} (value : α) (vector : List Token)
    (cursor : Nat) :
    (pure value : Reader α) vector cursor = .returns value cursor :=
  rfl

@[simp] theorem bind_apply {α β : Type} (reader : Reader α)
    (next : α → Reader β) (vector : List Token) (cursor : Nat) :
    (reader >>= next) vector cursor =
      (reader vector cursor).bind fun value => next value vector :=
  rfl

def firstFinish (vector : List Token) : Nat :=
  vector.findIdx Token.Stream.isFinish

def fail {α : Type} (fault : Fault) : Reader α :=
  fun _ _ => .faults fault

/-- The token under the cursor. No token is ever seen but through this. -/
def peek : Reader Token :=
  fun vector cursor =>
    match vector[cursor]? with
    | none => .faults .outOfRange
    | some token =>
        if cursor ≤ firstFinish vector then .returns token cursor
        else .faults .pastFinish

def atEnd : Reader Bool := do
  let token ← peek
  return Token.Stream.isFinish token

/-- Moves the cursor by one token. No cursor is ever moved but through this. -/
def step : Reader Unit :=
  fun vector cursor =>
    if cursor + 1 ≤ firstFinish vector then .returns () (cursor + 1)
    else .faults .pastFinish

def next? : Reader (Option Token) := do
  let token ← peek
  return if Token.Stream.isFinish token then none else some token

def advance : Reader Unit := do
  if ← atEnd then return () else step

/-- A reader that may not return with the cursor where it was. -/
def advancing {α : Type} (reader : Reader α) : Reader α :=
  fun vector cursor =>
    (reader vector cursor).bind fun value moved =>
      if cursor < moved then .returns value moved else .faults .standstill

def recovering {α : Type} (reader : Reader α)
    (recovery : Diagnostic → Reader α) : Reader α :=
  fun vector cursor =>
    match reader vector cursor with
    | .refuses diagnostic moved => recovery diagnostic vector moved
    | motion => motion

def refuse {α : Type} (problem : Problem) : Reader α := do
  let found ← peek
  fun _ cursor => .refuses { problem := problem, found := found } cursor

def follow : {α : Type} → Production α → Reader α
  | _, .done value => pure value
  | _, .fail problem => refuse problem
  | _, .exhausted => fail .exhausted
  | _, .peek => next?
  | _, .advance => advance
  | _, .delayed production => follow (production ())
  | _, .advancing production => advancing (follow production)
  | _, .andThen first next => follow first >>= fun value => follow (next value)

def item (fuel : Nat) : Reader Item :=
  let kept : Reader Item := do
    let content ← follow (statement fuel)
    return .kept content
  advancing <| recovering kept fun diagnostic => do
    follow (synchronize fuel)
    return .dropped diagnostic

def items : (fuel : Nat) → Reader (List Item)
  | 0 => fail .exhausted
  | fuel + 1 => do
      if ← atEnd then return []
      else
        let first ← item (fuel + 1)
        let others ← items fuel
        return first :: others

def parse (fuel : Nat) (vector : List Token) : Motion Parsed :=
  (items fuel vector 0).bind fun list cursor =>
    .returns (Parsed.ofItems list) cursor

end Grammar.Cursor

end ScriptAudit
