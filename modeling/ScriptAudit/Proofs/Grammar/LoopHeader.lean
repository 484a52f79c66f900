/-
Loop headers as they show in a token list: the run of tokens between the
parentheses after the keyword of a loop.

A scan from left to right tells for each token whether it stands in a header. A
phrase of the grammar begins and ends outside all headers.
-/

import ScriptAudit.Proofs.Grammar.Reading

namespace ScriptAudit.Grammar

/-- Where a scan has come to: outside all headers, right after the keyword of a
loop, or in a header with so many parentheses open beside its own. -/
inductive Region where
  | code
  | keyword
  | header (inner : Nat)
  deriving DecidableEq

def isLoopKeyword (token : Token) : Bool :=
  token.isSpelled .keyword ["while", "for"]

namespace Region

def isHeader : Region → Bool
  | header _ => true
  | _ => false

def next : Region → Token → Region
  | code, token => if isLoopKeyword token then keyword else code
  | keyword, token =>
      if token.kind = .leftParen then header 0
      else if isLoopKeyword token then keyword
      else code
  | header inner, token =>
      if token.kind = .leftParen then header (inner + 1)
      else if token.kind = .rightParen then
        match inner with
        | 0 => code
        | outer + 1 => header outer
      else header inner

def after (region : Region) (tokens : List Token) : Region :=
  tokens.foldl next region

@[simp] theorem after_nil (region : Region) : region.after [] = region :=
  rfl

@[simp] theorem after_cons (region : Region) (token : Token)
    (rest : List Token) :
    region.after (token :: rest) = (region.next token).after rest :=
  rfl

@[simp] theorem after_append (region : Region) (front back : List Token) :
    region.after (front ++ back) = (region.after front).after back :=
  List.foldl_append

theorem next_code {token : Token} (other : isLoopKeyword token = false) :
    code.next token = code := by
  simp [next, other]

theorem next_opening {token : Token} (opens : token.kind = .leftParen)
    (inner : Nat) : (header inner).next token = header (inner + 1) := by
  simp [next, opens]

theorem next_closing {token : Token} (closes : token.kind = .rightParen)
    (inner : Nat) : (header (inner + 1)).next token = header inner := by
  simp [next, closes]

theorem next_inside {token : Token} (notOpening : token.kind ≠ .leftParen)
    (notClosing : token.kind ≠ .rightParen) (inner : Nat) :
    (header inner).next token = header inner := by
  simp [next, notOpening, notClosing]

end Region

/-- A scan from one header region to another that leaves the header nowhere. -/
structure Stays (first last : Region) (tokens : List Token) : Prop where
  ends : first.after tokens = last
  inside : ∀ front, front <+: tokens → (first.after front).isHeader = true

namespace Stays

theorem nil {region : Region} (header : region.isHeader = true) :
    Stays region region [] := by
  constructor
  · rfl
  · intro front within
    rw [List.prefix_nil.mp within]
    exact header

theorem cons {first last : Region} {token : Token} {rest : List Token}
    (header : first.isHeader = true) (stays : Stays (first.next token) last rest) :
    Stays first last (token :: rest) := by
  constructor
  · exact stays.ends
  · intro front within
    rcases List.prefix_cons_iff.mp within with rfl | ⟨others, rfl, inner⟩
    · exact header
    · exact stays.inside others inner

theorem append {first middle last : Region} {front back : List Token}
    (before : Stays first middle front) (behind : Stays middle last back) :
    Stays first last (front ++ back) := by
  constructor
  · rw [Region.after_append, before.ends, behind.ends]
  · rintro part ⟨others, same⟩
    rcases List.append_eq_append_iff.mp same with
      ⟨shared, rfl, _⟩ | ⟨shared, rfl, rfl⟩
    · exact before.inside part ⟨shared, rfl⟩
    · rw [Region.after_append, before.ends]
      exact behind.inside shared ⟨others, rfl⟩

end Stays

theorem Balanced.stays {tokens : List Token} (balanced : Balanced tokens) :
    ∀ inner, Stays (.header inner) (.header inner) tokens := by
  induction balanced with
  | nil =>
      intro inner
      exact .nil rfl
  | token notOpening notClosing _ inductionHypothesis =>
      intro inner
      apply Stays.cons rfl
      rw [Region.next_inside notOpening notClosing]
      exact inductionHypothesis inner
  | group opens closes _ _ innerHypothesis restHypothesis =>
      intro inner
      apply Stays.cons rfl
      rw [Region.next_opening opens]
      refine (innerHypothesis (inner + 1)).append ?_
      apply Stays.cons rfl
      rw [Region.next_closing closes]
      exact restHypothesis inner

/-! ### Phrases begin and end outside headers -/

theorem next_code_of_kind {token : Token} {kind : Token.Kind}
    (known : token.kind = kind) (other : kind ≠ .keyword := by decide) :
    Region.code.next token = .code := by
  apply Region.next_code
  simp [isLoopKeyword, Token.isSpelled, known, other]

theorem next_code_of_isSpelled {token : Token} {kind : Token.Kind}
    {spellings : List Bytes} (spelled : token.isSpelled kind spellings = true)
    (disjoint : ∀ spelling ∈ spellings,
      spelling ∉ (["while", "for"] : List Bytes) := by decide) :
    Region.code.next token = .code := by
  apply Region.next_code
  rw [Bool.eq_false_iff]
  intro loop
  exact disjoint _ (isSpelled_iff.mp spelled).2 (isSpelled_iff.mp loop).2

def Phrase.Proper : Phrase → Prop
  | .chain rank tighter _ => rank ∈ ranks ∧ ∀ other ∈ tighter, other ∈ ranks
  | .binary ladder _ => ∀ rank ∈ ladder, rank ∈ ranks
  | _ => True

theorem next_code_of_admits {rank : Rank} {token : Token} (known : rank ∈ ranks)
    (admitted : rank.admits token = true) :
    Region.code.next token = .code := by
  have kinds : ∀ rank ∈ ranks, rank.kind ≠ .keyword := by decide
  exact next_code_of_kind (kind_of_isSpelled admitted) (kinds rank known)

theorem Terminator.after_code {tokens : List Token}
    (ends : Terminator tokens) : Region.code.after tokens = .code := by
  cases ends with
  | absent => rfl
  | semicolon kind => exact next_code_of_kind kind

theorem enters_header {keyword opening : Token}
    (spelled : isLoopKeyword keyword = true)
    (opens : opening.kind = .leftParen) :
    (Region.code.next keyword).next opening = .header 0 := by
  simp [Region.next, spelled, opens]

theorem after_header {keyword opening closing : Token} {header : List Token}
    (spelled : isLoopKeyword keyword = true) (opens : opening.kind = .leftParen)
    (balanced : Balanced header) (closes : closing.kind = .rightParen) :
    ((Region.code.next keyword).next opening).after header = .header 0 ∧
      (Region.header 0).next closing = .code := by
  constructor
  · rw [enters_header spelled opens, (balanced.stays 0).ends]
  · simp [Region.next, closes]

/-- A phrase begins and ends outside the headers of loops. -/
theorem Derives.after_code {phrase : Phrase} {tokens : List Token}
    (derivation : Derives phrase tokens) :
    phrase.Proper → Region.code.after tokens = .code := by
  -- A hypothesis, so that the rules with punctuation only close by rewriting.
  have plain {token : Token} {kind : Token.Kind} (known : token.kind = kind)
      (other : kind ≠ .keyword) : Region.code.next token = .code :=
    next_code_of_kind known other
  induction derivation with
  | literal writes =>
      intro _
      have kind := kind_of_literal? writes
      apply plain rfl
      intro keyword
      rw [keyword] at kind
      revert kind
      decide
  | update _ updates accessed =>
      intro _
      simp [accessed trivial, plain (kind_of_isUpdate updates)]
  | join _ admitted _ chain operand =>
      intro proper
      simp [chain proper, next_code_of_admits proper.1 admitted,
        operand proper.2]
  | simple _ ladder =>
      intro _
      exact ladder fun rank member => member
  | assignment _ kind _ ladder assigned =>
      intro _
      simp [ladder fun rank member => member, plain kind, assigned trivial]
  | initialized kind spelled _ init =>
      intro _
      simp [plain kind, next_code_of_isSpelled spelled, init trivial]
  | declaration spelled _ ends list =>
      intro _
      simp [next_code_of_isSpelled spelled, list trivial, ends.after_code]
  | function spelled kind opens _ closes _ parameters block =>
      intro _
      simp [next_code_of_isSpelled spelled, plain kind, plain opens,
        parameters trivial, plain closes, block trivial]
  | returnNothing spelled ends =>
      intro _
      simp [next_code_of_isSpelled spelled, ends.after_code]
  | returnValue spelled _ ends argument =>
      intro _
      simp [next_code_of_isSpelled spelled, argument trivial, ends.after_code]
  | ifThen spelled opens _ closes _ condition branch =>
      intro _
      simp [next_code_of_isSpelled spelled, plain opens,
        condition trivial, plain closes, branch trivial]
  | ifElse spelled opens _ closes _ elseSpelled _ condition branch other =>
      intro _
      simp [next_code_of_isSpelled spelled, plain opens,
        condition trivial, plain closes, branch trivial,
        next_code_of_isSpelled elseSpelled, other trivial]
  | loop spelled opens balanced closes _ repeated =>
      intro _
      have header := after_header spelled opens balanced closes
      simp [header.1, header.2, repeated trivial]
  | expressionStatement _ _ ends content =>
      intro _
      simp [content trivial, ends.after_code]
  | _ => simp_all [Phrase.Proper]

end ScriptAudit.Grammar
