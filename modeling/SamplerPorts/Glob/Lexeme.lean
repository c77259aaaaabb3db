import SamplerPorts.Glob.Error

/-!
The lexemes of a glob: characters with or without a backslash in front, wildcards, brackets of
groups, and whole character classes. A class is read to its end here because nothing in it but its
own signs has a meaning.
-/

namespace SamplerPorts.Glob

inductive Lexeme where
  | plain (c : Char)
  /-- A character with a backslash in front. -/
  | escaped (c : Char)
  | question
  | asterisk
  | openGroup
  | closeGroup
  | comma
  | oneOf (negated : Bool) (ranges : List (Char × Char))
  /-- What stands here cannot be read. -/
  | bad (e : Error)
  deriving DecidableEq

/-- A character class that is being read. -/
structure Class where
  negated : Bool
  /-- The ranges so far, the last one first. -/
  ranges : List (Char × Char)
  /-- Whether a dash after the last range waits for its upper bound. -/
  isOpen : Bool

namespace Class

/-- The class with a character in it. A waiting dash makes the character the upper bound of the
last range. -/
def add (cls : Class) (c : Char) : Except Error Class :=
  match cls.isOpen, cls.ranges with
  | true, (first, _) :: more =>
      if c < first then .error (.invalidRange first c)
      else .ok { cls with ranges := (first, c) :: more, isOpen := false }
  | _, ranges => .ok { cls with ranges := (c, c) :: ranges, isOpen := false }

/-- The lexeme for a class at its end. A dash that still waits stands for itself. -/
def close (cls : Class) : Lexeme :=
  .oneOf cls.negated ((if cls.isOpen then ('-', '-') :: cls.ranges else cls.ranges).reverse)

end Class

/-- Where in a glob the next character stands. -/
inductive Position where
  | outside
  | behindBackslash
  /-- Right behind the opening bracket of a class. -/
  | atClass
  /-- Behind the opening bracket and the sign of a negated class. -/
  | atNegated
  | inClass (cls : Class)

namespace Lexeme

/-- The lexeme of a character that neither begins a class nor escapes the next one. -/
def ofChar : Char → Lexeme
  | '?' => .question
  | '*' => .asterisk
  | '{' => .openGroup
  | '}' => .closeGroup
  | ',' => .comma
  | c => .plain c

/-- The lexemes of a glob. They end where something cannot be read. -/
def scan : Position → Text → List Lexeme
  | .outside, [] => []
  | .behindBackslash, [] => [.bad .danglingEscape]
  | _, [] => [.bad .unclosedClass]
  | .outside, c :: rest =>
      if c = '[' then scan .atClass rest
      else if c = '\\' then scan .behindBackslash rest
      else ofChar c :: scan .outside rest
  | .behindBackslash, c :: rest => .escaped c :: scan .outside rest
  | .atClass, c :: rest =>
      if c = '!' ∨ c = '^' then scan .atNegated rest
      else scan (.inClass ⟨false, [(c, c)], false⟩) rest
  | .atNegated, c :: rest => scan (.inClass ⟨true, [(c, c)], false⟩) rest
  | .inClass cls, c :: rest =>
      if c = ']' then cls.close :: scan .outside rest
      else if c = '-' ∧ !cls.isOpen then scan (.inClass { cls with isOpen := true }) rest
      else
        match cls.add c with
        | .ok cls => scan (.inClass cls) rest
        | .error e => [.bad e]

end Lexeme
end SamplerPorts.Glob
