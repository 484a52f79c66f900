/-
The part of a token list that the grammar reads: the tokens that carry meaning,
up to the first end-of-file token. A list without one is closed by a token at
the place of its last significant token.
-/

import ScriptAudit.Token.Lexer

namespace ScriptAudit.Token

structure Stream where
  tokens : List Token
  finish : Token

namespace Stream

def isFinish (token : Token) : Bool :=
  token.kind == .endOfFile

def ofTokens (all : List Token) : Stream :=
  let significant := all.filter fun token => !token.kind.isTrivia
  let tokens := significant.takeWhile fun token => !isFinish token
  let lastPosition := (tokens.getLast?.map Token.position).getD .start
  { tokens := tokens
    finish := (significant.find? isFinish).getD (Token.finish lastPosition) }

end Stream

end ScriptAudit.Token
