import SamplerPorts.Log.Event

/-!
Which events are shown. A filter is written as directives between commas: a level for all targets,
or a target with a level of its own. Of the directives that apply to an event, the one with the
longest target decides.
-/

namespace SamplerPorts.Log

/-- How much is shown, from nothing to everything. -/
inductive Level where
  | off
  | error
  | warn
  | info
  | debug
  | trace
  deriving DecidableEq

namespace Level

def rank : Level → Nat
  | off => 0
  | error => 1
  | warn => 2
  | info => 3
  | debug => 4
  | trace => 5

def names : List (String × Level) :=
  [("off", off), ("error", error), ("warn", warn), ("info", info), ("debug", debug),
    ("trace", trace)]

/-- A level is written as its name, in letters of either case, or as its rank. -/
def ofText? (t : Text) : Option Level :=
  (names.find? fun (name, level) =>
    t.map Char.toLower == name.toList || t == Text.ofNat level.rank).map (·.2)

end Level

structure Directive where
  /-- What the targets that the directive applies to begin with. -/
  target : Text
  level : Level
  deriving DecidableEq

namespace Directive

/-- Whether a character may stand in a target. -/
def isTargetChar (c : Char) : Bool :=
  c.isAlphanum || c == '_' || c == ':' || c == '-' || c.toNat ≥ 128

/-- A target without a level shows everything. -/
def ofText? (t : Text) : Option Directive :=
  match Level.ofText? t with
  | some level => some ⟨[], level⟩
  | none =>
      let target := t.takeWhile isTargetChar
      if target.isEmpty then none
      else
        match t.drop target.length with
        | [] | ['='] => some ⟨target, .trace⟩
        | '=' :: level => (Level.ofText? level).map (⟨target, ·⟩)
        | _ => none

def appliesTo (d : Directive) (e : Event) : Bool := d.target.isPrefixOf e.target

end Directive

abbrev Filter := List Directive

namespace Filter

/-- The filter that is used if none is given, or one that cannot be read. -/
def standard : Filter := [⟨[], .warn⟩]

def ofText? (t : Text) : Option Filter :=
  ((Text.pieces ',' t).filter fun piece => !piece.isEmpty).mapM Directive.ofText?

/-- The directive that decides on an event: of two with the same target the later one. -/
def deciding? (f : Filter) (e : Event) : Option Directive :=
  (f.filter (·.appliesTo e)).foldl
    (fun best d =>
      match best with
      | some b => if d.target.length ≥ b.target.length then some d else some b
      | none => some d) none

def shows (f : Filter) (e : Event) : Bool :=
  (f.deciding? e).any fun d => d.level.rank ≥ Level.debug.rank

def render (f : Filter) (events : List Event) : Text :=
  (events.filter f.shows).flatMap Event.line

end Filter
end SamplerPorts.Log
