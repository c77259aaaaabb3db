import SamplerPorts.Text.Digit

/-!
Port values in a line of a test plan. A sampler's port is written as a key, a quote, a closing
angle bracket and the digits of the value. A line is seen as the texts around its port values, and
setting the values joins these texts with the new value between them.
-/

namespace SamplerPorts.PortValue
open Text

/-- The key of a sampler's port up to the value, as this library writes it. -/
def key : Text := "HTTPSampler.port\">".toList

/-- A port value as this library writes it. -/
def written (port : Nat) : Text := key ++ Text.ofNat port

/-- The text after a port key at the head of `t`. Any character but a line feed may stand between
the two words of the key. -/
def afterKey? (t : Text) : Option Text :=
  match Text.rest? "HTTPSampler".toList t with
  | some (c :: rest) => if c = '\n' then none else Text.rest? "port\">".toList rest
  | _ => none

/-- The text after a port value at the head of `t`: after the key and all the decimal digits that
follow it, of which there is at least one. -/
def after? (t : Text) : Option Text :=
  match afterKey? t with
  | some (c :: rest) => if isDecimalDigit c then some (rest.dropWhile isDecimalDigit) else none
  | _ => none

theorem length_lt_of_afterKey? {t rest : Text} (h : afterKey? t = some rest) :
    rest.length < t.length := by
  unfold afterKey? at h
  split at h
  · next c r hr =>
    have := rest?_eq_some_iff.1 hr
    split at h
    · cases h
    · have := rest?_eq_some_iff.1 h
      simp_all
      omega
  · cases h

/-- A port value takes some characters. -/
theorem length_lt_of_after? {t rest : Text} (h : after? t = some rest) :
    rest.length < t.length := by
  unfold after? at h
  split at h
  · next c r hr =>
    have := length_lt_of_afterKey? hr
    have := (List.dropWhile_suffix isDecimalDigit (l := r)).length_le
    split at h
    · simp_all
      omega
    · cases h
  · cases h

/-- The texts before, between and after the port values of a line, from the left. A line with `n`
values has `n + 1` of them. -/
def around (t : Text) : List Text :=
  match _h : after? t with
  | some rest => [] :: around rest
  | none =>
    match t with
    | [] => [[]]
    | c :: rest =>
      match around rest with
      | [] => [[c]]
      | first :: more => (c :: first) :: more
termination_by t.length
decreasing_by
  · exact length_lt_of_after? _h
  · simp

/-- The line with every port value replaced. -/
def setAll (value : Text) (line : Text) : Text := Text.join value (around line)

/-- Whether the line holds the written form of one of the ports. The digits may go on after it, so
a line that holds 30331 holds 3033 too. -/
def holdsOneOf (ports : List Nat) (line : Text) : Bool :=
  ports.any fun port => Text.has (written port) line

end SamplerPorts.PortValue
