import SamplerPorts.Text.Basic

/-!
Globs and what they match. A glob is a sequence of tokens, and a token takes some bytes off the
front of a path. As a token may be able to take more or fewer bytes, matching keeps every rest of
the path that can be left (`Token.rests`); the glob matches if nothing can be left.
-/

namespace SamplerPorts.Glob

inductive Token where
  | literal (c : Char)
  /-- Any byte but a slash. -/
  | anyOne
  /-- Any bytes but slashes, or none. -/
  | star
  /-- Nothing, a slash, or anything that ends in a slash. -/
  | treeBefore
  /-- A slash and anything behind it. -/
  | treeAfter
  /-- A slash, or anything that begins and ends in a slash. -/
  | treeBetween
  /-- A byte of the class, or one outside it. A slash counts like any other byte. -/
  | oneOf (negated : Bool) (ranges : List (Char × Char))
  /-- What one of the branches matches. Without a branch it is nothing. -/
  | choice (branches : List (List Token))
  deriving Repr

/-- The byte that separates the components of a path. -/
def slash : UInt8 := 47

/-- Every rest of the bytes that follows a slash. -/
def afterSlashes : Bytes → List Bytes
  | [] => []
  | b :: rest => if b = slash then rest :: afterSlashes rest else afterSlashes rest

/-- Every rest of the bytes that follows bytes other than slashes. -/
def withinName : Bytes → List Bytes
  | [] => [[]]
  | b :: rest => (b :: rest) :: if b = slash then [] else withinName rest

def allRests : Bytes → List Bytes
  | [] => [[]]
  | b :: rest => (b :: rest) :: allRests rest

/-- Whether a range of characters holds a byte. The range stands for the bytes of its bounds and
all bytes from the last one of the first bound to the first one of the last bound. -/
def rangeHolds (b : UInt8) : Char × Char → Bool
  | (first, last) =>
      let fs := String.utf8EncodeChar first
      let ls := String.utf8EncodeChar last
      fs.contains b || ls.contains b
        || (first != last && fs.getLast?.any (· ≤ b) && ls.head?.any (b ≤ ·))

namespace Token

/-- The rests that a token other than a choice can leave. -/
def restsOf : Token → Bytes → List Bytes
  | literal c, bs =>
      let cs := String.utf8EncodeChar c
      if cs.isPrefixOf bs then [bs.drop cs.length] else []
  | anyOne, b :: rest => if b = slash then [] else [rest]
  | star, bs => withinName bs
  | treeBefore, bs => bs :: afterSlashes bs
  | treeAfter, b :: rest => if b = slash then allRests rest else []
  | treeBetween, b :: rest => if b = slash then rest :: afterSlashes rest else []
  | oneOf negated ranges, b :: rest =>
      if ranges.any (rangeHolds b) != negated then [rest] else []
  | _, _ => []

mutual

def rests : Token → List Bytes → List Bytes
  | choice [], states => states
  | choice (branch :: more), states => (restsOfAny (branch :: more) states).eraseDups
  | t, states => (states.flatMap (restsOf t)).eraseDups

def restsOfAll : List Token → List Bytes → List Bytes
  | [], states => states
  | t :: ts, states => restsOfAll ts (rests t states)

def restsOfAny : List (List Token) → List Bytes → List Bytes
  | [], _ => []
  | branch :: more, states => restsOfAll branch states ++ restsOfAny more states

end

/-- Whether the token is a choice without branches, which matches nothing but the empty text. -/
def isVoid : Token → Bool
  | choice [] => true
  | _ => false

/-- The choice between the given branches. A branch that is written without content does not
count. -/
def choose (branches : List (List Token)) : Token :=
  choice (branches.filter fun branch => !branch.all isVoid)

end Token

/-- Whether the tokens match the whole path. A tree that is alone matches every path. -/
def isMatch (glob : List Token) (path : Bytes) : Bool :=
  match glob with
  | [.treeBefore] => true
  | _ => (Token.restsOfAll glob [path]).contains []

end SamplerPorts.Glob
