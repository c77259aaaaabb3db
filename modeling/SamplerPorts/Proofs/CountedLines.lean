import SamplerPorts.Proofs.ChangeCounts
import SamplerPorts.Proofs.Diff.PlainLines
import SamplerPorts.Proofs.Diff.Shortest
import SamplerPorts.Proofs.LineFates

/-!
How the number of changed lines in a summary and the number of lines that were set are related. The
summary counts the lines that are not in a longest common subsequence of the plan and its new
content. If carriage returns stand only at the ends of lines, the lines that were not set are a
common subsequence, so the summary never says more than was set, and it says just that if no line
that was set stands anywhere in the new content (`lines_counted`). It says less where lines that
were set come to stand elsewhere (`shifted_lines_counted_less`).
-/

namespace SamplerPorts
open Text PortValue Diff

theorem PortValue.lone_setAll {v t : Text} (hvalue : IsValue v) (hv : '\r' ∉ v)
    (ht : '\r' ∉ t.dropLast) :
    '\r' ∉ (setAll v t).dropLast := by
  induction t using valueInduction with
  | nil => rwa [setAll_nil]
  | value t rest hr ih =>
      obtain ⟨m, -, -, rfl⟩ := eq_append_of_after? hr
      rw [setAll_of_after? v hr]
      by_cases hnil : rest = []
      · rw [hnil, setAll_nil, List.append_nil]
        exact fun h => hv ((List.dropLast_sublist v).subset h)
      · rw [List.dropLast_append_of_ne_nil hnil, List.mem_append, not_or] at ht
        rw [List.dropLast_append_of_ne_nil (by rwa [Ne, setAll_eq_nil_iff hvalue]), List.mem_append,
          not_or]
        exact ⟨hv, ih ht.2⟩
  | char c rest hr ih =>
      rw [setAll_cons v hr]
      by_cases hnil : rest = []
      · rw [hnil, setAll_nil]
        exact List.not_mem_nil
      · rw [List.dropLast_cons_of_ne_nil hnil, List.mem_cons, not_or] at ht
        rw [List.dropLast_cons_of_ne_nil (by rwa [Ne, setAll_eq_nil_iff hvalue]), List.mem_cons,
          not_or]
        exact ⟨ht.1, ih ht.2⟩

theorem Verdict.isPlain_newLine (v : Verdict) {line : Text} (h : IsPlain line) :
    IsPlain (v.newLine line) := by
  cases v with
  | set e port =>
      exact ⟨not_mem_newLine _ h.feed,
        lone_setAll (isValue_written _) (not_mem_written (by decide) (by decide) _) h.lone⟩
  | notAPort | unrecognized | pathless => exact h

/-- The number of lines of a plan that its new content has another line in the place of. -/
def linesSet (before after : Text) : Nat :=
  ((Text.lines before).zip (Text.lines after)).countP fun p => p.1 != p.2

namespace Assigner
variable (a : Assigner) {plan : Text}

theorem isPlain_lines (h : ∀ line ∈ Text.lines plan, '\r' ∉ line.dropLast) :
    ∀ line ∈ Text.lines plan, IsPlain line :=
  fun line hline => ⟨not_mem_of_mem_pieces hline, h line hline⟩

theorem isPlain_lines_content (h : ∀ line ∈ Text.lines plan, IsPlain line) :
    ∀ line ∈ Text.lines (a.apply plan).content, IsPlain line := by
  rw [a.lines_content]
  intro line hline
  obtain ⟨i, hi, rfl⟩ := List.mem_mapIdx.1 hline
  exact Verdict.isPlain_newLine _ (h _ (List.getElem_mem hi))

theorem length_lines_eq :
    (Text.lines plan).length = (Text.lines (a.apply plan).content).length := by
  rw [a.lines_content, newLines, List.length_mapIdx]

theorem counted_le_linesSet (h : ∀ line ∈ Text.lines plan, IsPlain line) :
    (Summary.of plan (a.apply plan).content).lines ≤ linesSet plan (a.apply plan).content := by
  obtain ⟨kept, hkept, hcounted⟩ := exists_kept plan (a.apply plan).content
  obtain ⟨s, hs, hlength⟩ := exists_common_of_zip a.length_lines_eq h (a.isPlain_lines_content h)
  rw [unlines_lines, unlines_lines] at hs
  rw [unlines_lines] at hlength
  have := hkept.le s hs
  rw [linesSet]
  omega

theorem linesSet_le_counted (h : ∀ line ∈ Text.lines plan, IsPlain line)
    (habsent : ∀ (i : Nat) line, (Text.lines plan)[i]? = some line →
      (Text.lines (a.apply plan).content)[i]? ≠ some line →
        line ∉ Text.lines (a.apply plan).content) :
    linesSet plan (a.apply plan).content ≤ (Summary.of plan (a.apply plan).content).lines := by
  obtain ⟨kept, hkept, hcounted⟩ := exists_kept plan (a.apply plan).content
  have hcontent := a.isPlain_lines_content h
  have hzip : _ ≤ (Diff.lines (unlines (Text.lines plan))).countP
      fun l => !(Diff.lines (a.apply plan).content).contains l :=
    countP_zip_le a.length_lines_eq h ?_ ?_
  · rw [unlines_lines] at hzip
    have := hkept.common.length_add_le
    rw [linesSet]
    omega
  · intro hlast
    rw [a.lines_content, newLines, List.getLast?_mapIdx, hlast, Option.map_some,
      (newLine_eq_nil_iff _ []).2 rfl]
  · rintro ⟨line, new⟩ hmem hne
    obtain ⟨i, hi⟩ := List.mem_iff_getElem?.1 hmem
    obtain ⟨hline, hnew⟩ := List.getElem?_zip_eq_some.1 hi
    have hfeed : '\n' ∉ line := (h line (List.mem_of_getElem? hline)).feed
    have hnot := habsent i line hline (by rw [hnew]; simpa using Ne.symm hne)
    have hout (x : Text) (hx : x = line ∨ x = line ++ ['\n']) :
        x ∉ Diff.lines (a.apply plan).content := by
      intro hmem
      rw [← unlines_lines (a.apply plan).content] at hmem
      obtain ⟨l, hl, hxl⟩ := mem_lines_unlines hcontent hmem
      have hlfeed := (hcontent l hl).feed
      obtain rfl | rfl := hx
      · obtain rfl | rfl := hxl
        · exact hnot hl
        · simp at hfeed
      · obtain rfl | hxl := hxl
        · simp at hlfeed
        · exact hnot (List.append_cancel_right hxl ▸ hl)
    simp [hout line (.inl rfl), hout (line ++ ['\n']) (.inr rfl)]

end Assigner

/-- What a summary counts. It counts the lines that are not in a longest common subsequence of the
plan and its new content, whatever lines the two have. If carriage returns only stand at the ends of
lines, this is no more than the number of lines that were set, and just as much if no line that was
set is a line of the new content. -/
theorem lines_counted (a : Assigner) (plan : Text) :
    let content := (a.apply plan).content
    let counted := (Summary.of plan content).lines
    (∃ kept, IsLongest kept (Diff.lines plan) (Diff.lines content) ∧
        kept.length + counted = (Diff.lines plan).length) ∧
      ((∀ line ∈ Text.lines plan, '\r' ∉ line.dropLast) →
        counted ≤ linesSet plan content ∧
          ((∀ (i : Nat) line, (Text.lines plan)[i]? = some line →
              (Text.lines content)[i]? ≠ some line → line ∉ Text.lines content) →
            counted = linesSet plan content)) := by
  refine ⟨exists_kept _ _, fun hlone => ?_⟩
  have hplain := Assigner.isPlain_lines hlone
  exact ⟨a.counted_le_linesSet hplain, fun habsent =>
    Nat.le_antisymm (a.counted_le_linesSet hplain) (a.linesSet_le_counted hplain habsent)⟩

/-- The line that is set is not a line of the new content, so it is counted. -/
theorem one_line_counted :
    let plan := "HTTPSampler.port\">3033\nHTTPSampler.path\">/api".toList
    let content := ((Assigner.ofConfig .standard).apply plan).content
    linesSet plan content = 1 ∧ (Summary.of plan content).lines = 1 := by
  intro plan content
  have hset : linesSet plan content = 1 := by decide +kernel
  have hlines : Text.lines plan =
      ["HTTPSampler.port\">3033".toList, "HTTPSampler.path\">/api".toList] := by decide +kernel
  have hcontent : Text.lines content =
      ["HTTPSampler.port\">3034".toList, "HTTPSampler.path\">/api".toList] := by decide +kernel
  have hlone : ∀ line ∈ Text.lines plan, '\r' ∉ line.dropLast := by
    rw [hlines]
    decide
  have habsent : ∀ (i : Nat) line, (Text.lines plan)[i]? = some line →
      (Text.lines content)[i]? ≠ some line → line ∉ Text.lines content := by
    intro i line hline hne
    rw [hlines] at hline
    rw [hcontent] at hne ⊢
    obtain _ | _ | i := i
    · obtain rfl := Option.some.inj hline
      decide
    · rw [List.getElem?_cons_succ] at hline hne
      exact absurd hline hne
    · cases hline
  have hcounted := ((lines_counted (.ofConfig .standard) plan).2 hlone).2 habsent
  exact ⟨hset, hcounted.trans hset⟩

/-- All four port lines are set, but the lines with 3034 are set to what the lines with 3035 were,
and these are kept as a block. The path between them is one of the three lines that are counted. -/
theorem shifted_lines_counted_less :
    let plan := ("HTTPSampler.port\">3035\nHTTPSampler.port\">3035\nHTTPSampler.path\">/api\n" ++
      "HTTPSampler.port\">3034\nHTTPSampler.port\">3034\nHTTPSampler.path\">/graph\n").toList
    let content := ((Assigner.ofConfig .standard).apply plan).content
    linesSet plan content = 4 ∧ Summary.of plan content = ⟨1, 3⟩ := by
  decide +kernel

/-- One line is set, but a carriage return in it makes two lines that are counted. -/
example :
    let plan := "HTTPSampler.port\">3033\rHTTPSampler.port\">3033\nHTTPSampler.path\">/api".toList
    let content := ((Assigner.ofConfig .standard).apply plan).content
    linesSet plan content = 1 ∧ Summary.of plan content = ⟨1, 2⟩ := by
  decide +kernel

end SamplerPorts
