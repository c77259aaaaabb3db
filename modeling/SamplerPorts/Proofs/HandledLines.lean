import Mathlib.Data.List.Infix
import SamplerPorts.Proofs.LineFates

/-!
The port values of a line, and which of them make an assigner handle it. A line is handled if one of
its values begins with the digits of an old port (`handled_iff_value_begins`), so all other lines are
left alone. That the value goes on behind these digits makes no difference: a value that is no old
port is set if an old port is the first part of it (`longer_value_is_set`).
-/

namespace SamplerPorts
open Text PortValue

namespace PortValue

/-- The port values of a line: the digits right behind each place where the key stands. -/
def values (line : Text) : List Text :=
  line.tails.filterMap fun t => (rest? key t).map (List.takeWhile Char.isDigit)

theorem mem_values_iff {line value : Text} :
    value ∈ values line ↔
      ∃ rest, key ++ rest <:+ line ∧ rest.takeWhile Char.isDigit = value := by
  simp only [values, List.mem_filterMap, List.mem_tails, Option.map_eq_some_iff,
    rest?_eq_some_iff]
  constructor
  · rintro ⟨_, ht, rest, rfl, hvalue⟩
    exact ⟨rest, ht, hvalue⟩
  · rintro ⟨rest, ht, hvalue⟩
    exact ⟨_, ht, rest, rfl, hvalue⟩

theorem prefix_takeWhile_iff {p : Char → Bool} {s t : Text} (h : ∀ c ∈ s, p c = true) :
    s <+: t.takeWhile p ↔ s <+: t := by
  constructor
  · intro hs
    exact hs.trans (List.takeWhile_prefix p)
  · rintro ⟨rest, rfl⟩
    rw [List.takeWhile_append_of_pos h]
    exact List.prefix_append ..

/-- A port is written in a line if it is the first part of a value. -/
theorem written_infix_iff {port : Nat} {line : Text} :
    written port <:+: line ↔ ∃ value ∈ values line, ofNat port <+: value := by
  have hdigits : ∀ c ∈ ofNat port, c.isDigit = true := fun c hc =>
    Nat.isDigit_of_mem_toDigits (by decide) (by decide) hc
  simp only [mem_values_iff, List.infix_iff_prefix_suffix]
  constructor
  · rintro ⟨_, ⟨more, rfl⟩, hsuffix⟩
    rw [written, List.append_assoc] at hsuffix
    exact ⟨_, ⟨_, hsuffix, rfl⟩, (prefix_takeWhile_iff hdigits).2 (List.prefix_append ..)⟩
  · rintro ⟨_, ⟨rest, hsuffix, rfl⟩, hport⟩
    exact ⟨_, (List.prefix_append_right_inj key).2 ((prefix_takeWhile_iff hdigits).1 hport), hsuffix⟩

end PortValue

namespace Assigner
variable (a : Assigner)

theorem handles_iff_exists_value {line : Text} :
    a.handles line = true ↔
      ∃ value ∈ values line, ∃ port ∈ a.config.oldPorts, ofNat port.toNat <+: value := by
  simp only [handles, holdsOneOf, List.any_map, List.any_eq_true, Function.comp_apply, has_iff,
    written_infix_iff]
  constructor
  · rintro ⟨port, hport, value, hvalue, hbegins⟩
    exact ⟨value, hvalue, port, hport, hbegins⟩
  · rintro ⟨value, hvalue, port, hport, hbegins⟩
    exact ⟨port, hport, value, hvalue, hbegins⟩

/-- A line that is not handled is kept, and no warning is about it. -/
theorem kept_of_not_handles {source line : Text} {i : Nat} (hline : (lines source)[i]? = some line)
    (h : a.handles line = false) :
    (lines (a.apply source).content)[i]? = some line ∧
      ∀ w ∈ (a.apply source).warnings, w.line ≠ i + 1 := by
  have hverdict := a.verdict_of_not_handles h (lines source) i
  constructor
  · rw [getElem?_lines_content, hline, Option.map_some, hverdict]
    rfl
  · intro w hw hi
    obtain ⟨n, hn, rfl⟩ := List.mem_map.1 hw
    obtain ⟨j, other, hj, hother, hpathless⟩ := a.mem_warnedLines_iff.1 hn
    obtain rfl : j = i := Nat.succ.inj (hj.symm.trans hi)
    obtain rfl := Option.some.inj (hother.symm.trans hline)
    rw [hverdict] at hpathless
    cases hpathless

end Assigner

/-- A line is handled exactly if one of its port values begins with an old port. A line without such
a value is kept wherever it stands, and no warning is about it. -/
theorem handled_iff_value_begins (a : Assigner) (line : Text) :
    (a.handles line = true ↔
        ∃ value ∈ values line, ∃ port ∈ a.config.oldPorts, ofNat port.toNat <+: value) ∧
      ((∀ value ∈ values line, ∀ port ∈ a.config.oldPorts, ¬ ofNat port.toNat <+: value) →
        a.handles line = false ∧
          ∀ source i, (lines source)[i]? = some line →
            (lines (a.apply source).content)[i]? = some line ∧
              ∀ w ∈ (a.apply source).warnings, w.line ≠ i + 1) := by
  refine ⟨a.handles_iff_exists_value, fun h => ?_⟩
  have hhandles : a.handles line = false := by
    rw [Bool.eq_false_iff, Ne, a.handles_iff_exists_value]
    rintro ⟨value, hvalue, port, hport, hbegins⟩
    exact h value hvalue port hport hbegins
  exact ⟨hhandles, fun source i hline => a.kept_of_not_handles hline hhandles⟩

/-- The only value of the line is 30331, which is no old port, but 3033 is the first part of it. -/
theorem longer_value_is_set :
    let a := Assigner.ofConfig .standard
    let line := "HTTPSampler.port\">30331".toList
    (∀ value ∈ values line, ∀ port ∈ a.config.oldPorts, value ≠ ofNat port.toNat) ∧
      a.handles line = true ∧
      (a.apply (line ++ "\nHTTPSampler.path\">/api".toList)).content =
        "HTTPSampler.port\">3034\nHTTPSampler.path\">/api".toList := by
  have hvalues : values "HTTPSampler.port\">30331".toList = ["30331".toList] := by decide +kernel
  refine ⟨?_, by decide +kernel, by decide +kernel⟩
  rw [hvalues, List.forall_mem_singleton]
  exact List.forall_mem_cons.2 ⟨by decide, List.forall_mem_cons.2 ⟨by decide,
    List.forall_mem_singleton.2 (by decide)⟩⟩

end SamplerPorts
