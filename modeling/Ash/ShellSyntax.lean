import Ash.ByteCodecs

/-! # Syntax of the shell

Words keep their quoted and unquoted parts apart.  What stands in a command substitution is a
script again; everything below a script is stated for any type of scripts. -/

namespace Ash.ShellSyntax
open ByteCodecs

/-- A range of bytes of the source. -/
structure SourceSpan where
  start : ℕ
  stop : ℕ
  ordered : start ≤ stop
  deriving DecidableEq

inductive QuoteMode where
  | unquoted | single | double
  deriving DecidableEq

inductive Parameter where
  | variable (name : Text) (braced : Bool)
  | lastStatus
  deriving DecidableEq

variable (σ : Type)

structure CommandSubstitution where
  script : σ
  bodySpan : SourceSpan
  span : SourceSpan

inductive WordPart where
  | literal (value : Text) (quote : QuoteMode) (span : SourceSpan)
  | escapedLiteral (value : Text) (span : SourceSpan)
  | parameter (parameter : Parameter) (quote : QuoteMode) (span : SourceSpan)
  | commandSubstitution (substitution : CommandSubstitution σ) (quote : QuoteMode)

structure Word where
  parts : List (WordPart σ)
  span : SourceSpan

variable {σ}

def WordPart.quote : WordPart σ → QuoteMode
  | .literal _ quote _ | .parameter _ quote _ | .commandSubstitution _ quote => quote
  | .escapedLiteral _ _ => .unquoted

def WordPart.isSubstitution : WordPart σ → Bool
  | .commandSubstitution _ _ => true
  | _ => false

/-- How many values the substitutions of a word need. -/
def Word.substitutions (word : Word σ) : ℕ := word.parts.countP WordPart.isSubstitution

end Ash.ShellSyntax
