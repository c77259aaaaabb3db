import SamplerPorts.Glob.Lexeme
import SamplerPorts.Glob.Token

/-!
Reading globs. The groups that are open are kept on a stack; two asterisks stand for a whole tree
where they are a component of their own, and for two stars elsewhere.
-/

namespace SamplerPorts.Glob

/-- A group that is open: its finished branches and the tokens before it, the last ones first. -/
structure OpenGroup where
  branches : List (List Token)
  before : List Token

/-- What was read of a glob: the open groups from the innermost one, the tokens of the current
branch from the last one, and the last character. -/
structure Reading where
  groups : List OpenGroup
  tokens : List Token
  last : Option Char

namespace Reading

def start : Reading := ⟨[], [], none⟩

/-- Add a token that ends in the character `c`. -/
def push (r : Reading) (t : Token) (c : Char) : Reading :=
  { r with tokens := t :: r.tokens, last := some c }

def openGroup (r : Reading) : Reading := ⟨⟨[], r.tokens⟩ :: r.groups, [], some '{'⟩

/-- End the innermost group, if there is one. -/
def closeGroup (r : Reading) : Except Error Reading :=
  match r.groups with
  | [] => .error .unopenedGroup
  | g :: groups =>
      let branches := (r.tokens.reverse :: g.branches).reverse
      .ok ⟨groups, Token.choose branches :: g.before, some '}'⟩

/-- A comma begins the next branch of a group. Outside all groups it stands for itself. -/
def comma (r : Reading) : Reading :=
  match r.groups with
  | [] => r.push (.literal ',') ','
  | g :: groups => ⟨{ g with branches := r.tokens.reverse :: g.branches } :: groups, [], some ','⟩

def twoStars (r : Reading) : Reading := (r.push .star '*').push .star '*'

/-- A tree token in the place of the last token, which is the slash in front of it unless it is a
tree itself. -/
def replaceLast (r : Reading) (t : Token) (c : Char) : Reading :=
  match r.tokens with
  | .treeBefore :: tokens => { r with tokens := .treeBefore :: tokens, last := some c }
  | .treeAfter :: tokens => { r with tokens := .treeAfter :: tokens, last := some c }
  | _ :: tokens => { r with tokens := t :: tokens, last := some c }
  | [] => { r with tokens := [t], last := some c }

/-- What follows two asterisks, as far as it says what they stand for. -/
inductive Follower where
  | slash
  /-- The end of the glob, or of a branch in a group. -/
  | branchEnd
  | other
  deriving DecidableEq

def follower (r : Reading) : List Lexeme → Follower
  | [] => .branchEnd
  | .plain '/' :: _ => .slash
  | .comma :: _ | .closeGroup :: _ => if r.groups.isEmpty then .other else .branchEnd
  | _ => .other

/-- Whether the last character lets two asterisks begin a component. -/
def isAtComponent (r : Reading) : Bool :=
  r.last == some '/' || (!r.groups.isEmpty && (r.last == some ',' || r.last == some '{'))

/-- Two asterisks and the lexemes behind them. The answer says whether the next lexeme, a slash,
is part of the tree token. -/
def tree (r : Reading) (rest : List Lexeme) : Reading × Bool :=
  if r.tokens.isEmpty then
    match rest, r.follower rest with
    | [], _ => (r.push .treeBefore '*', false)
    | _, .slash => (r.push .treeBefore '/', true)
    | _, _ => (r.twoStars, false)
  else if r.isAtComponent then
    match r.follower rest with
    | .branchEnd => (r.replaceLast .treeAfter '*', false)
    | .slash => (r.replaceLast .treeBetween '/', true)
    | .other => (r.twoStars, false)
  else (r.twoStars, false)

/-- The tokens at the end of the glob, where every group must be closed. -/
def finish (r : Reading) : Except Error (List Token) :=
  if r.groups.isEmpty then .ok r.tokens.reverse else .error .unclosedGroup

end Reading

/-- Read the lexemes from where the reading stands. -/
def parseFrom (r : Reading) : List Lexeme → Except Error (List Token)
  | [] => r.finish
  | .bad e :: _ => .error e
  | .plain c :: rest => parseFrom (r.push (.literal c) c) rest
  | .escaped c :: rest => parseFrom (r.push (.literal c) c) rest
  | .question :: rest => parseFrom (r.push .anyOne '?') rest
  | .oneOf negated ranges :: rest => parseFrom (r.push (.oneOf negated ranges) ']') rest
  | .openGroup :: rest => parseFrom r.openGroup rest
  | .closeGroup :: rest => do parseFrom (← r.closeGroup) rest
  | .comma :: rest => parseFrom r.comma rest
  | .asterisk :: .asterisk :: rest =>
      match r.tree rest, rest with
      | (r, true), _ :: rest => parseFrom r rest
      | (r, _), rest => parseFrom r rest
  | .asterisk :: rest => parseFrom (r.push .star '*') rest

def parse (glob : Text) : Except Error (List Token) :=
  parseFrom .start (Lexeme.scan .outside glob)

end SamplerPorts.Glob
