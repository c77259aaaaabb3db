import Mathlib.Data.List.Nodup
import SamplerPorts.Proofs.LineFates

/-!
Setting the lines of a plan in place, one visit at a time and in any order. A visit reads the plan
as the visits before it have left it. As setting a line keeps what it says about a path, each line
gets the verdict that it gets from the plan as it was read (`getElem?_foldl_visit`), so the order of
the visits shows only in the order of the warnings (`visits_in_any_order`).
-/

namespace SamplerPorts
open Text PortValue

/-- A plan whose lines are being set in place, and the warnings so far. -/
structure Draft where
  lines : List Text
  warnings : List Warning

namespace Assigner

/-- Visit line `i`: give it its verdict from the lines as they are now, and set it or warn about
it. -/
def visit (a : Assigner) (draft : Draft) (i : Nat) : Draft :=
  match draft.lines[i]? with
  | none => draft
  | some line =>
      let v := a.verdict draft.lines i line
      { lines := draft.lines.set i (v.newLine line)
        warnings :=
          if v = .pathless then draft.warnings ++ [⟨i + 1, a.classifier.window⟩]
          else draft.warnings }

/-- The warning about line `i`, if there is one. -/
def warningAt? (a : Assigner) (ls : List Text) (i : Nat) : Option Warning :=
  ls[i]?.bind fun line =>
    if a.verdict ls i line = .pathless then some ⟨i + 1, a.classifier.window⟩ else none

variable {a : Assigner}

theorem getElem?_visit (draft : Draft) (i k : Nat) :
    (a.visit draft i).lines[k]? = draft.lines[k]?.map fun line =>
      if k = i then (a.verdict draft.lines k line).newLine line else line := by
  cases hi : draft.lines[i]? with
  | none =>
      rw [visit, hi]
      by_cases hk : k = i
      · rw [hk, hi]
        rfl
      · simp [hk]
  | some line =>
      rw [visit, hi]
      by_cases hk : k = i
      · subst hk
        rw [List.getElem?_set_self (List.getElem?_eq_some_iff.1 hi).1, hi]
        simp
      · rw [List.getElem?_set_ne (Ne.symm hk)]
        simp [hk]

theorem warnings_visit (draft : Draft) (i : Nat) :
    (a.visit draft i).warnings = draft.warnings ++ (a.warningAt? draft.lines i).toList := by
  cases hi : draft.lines[i]? with
  | none => simp [visit, warningAt?, hi]
  | some line =>
      by_cases hv : a.verdict draft.lines i line = .pathless
      · simp [visit, warningAt?, hi, hv]
      · simp [visit, warningAt?, hi, hv]

theorem ofLine?_visit (draft : Draft) (i : Nat) :
    (a.visit draft i).lines.map Endpoint.ofLine? = draft.lines.map Endpoint.ofLine? := by
  apply List.ext_getElem?
  intro k
  rw [List.getElem?_map, List.getElem?_map, getElem?_visit, Option.map_map]
  congr 1
  funext line
  rw [Function.comp_apply]
  split
  · exact Verdict.ofLine?_newLine _ line
  · rfl

section
variable (hc : a.classifier.ReadsPaths) {order : List Nat}
include hc

/-- The lines that were set so far make no difference to a verdict. -/
theorem verdict_visit (draft : Draft) (i k : Nat) (line : Text) :
    a.verdict (a.visit draft i).lines k line = a.verdict draft.lines k line := by
  rw [verdict, hc _ _ (ofLine?_visit draft i) k]
  rfl

theorem warningAt?_visit (draft : Draft) {i k : Nat} (hk : k ≠ i) :
    a.warningAt? (a.visit draft i).lines k = a.warningAt? draft.lines k := by
  simp only [warningAt?, getElem?_visit, if_neg hk, Option.map_id', verdict_visit hc]

theorem getElem?_foldl_visit (hnodup : order.Nodup) (draft : Draft) (k : Nat) :
    (order.foldl a.visit draft).lines[k]? = draft.lines[k]?.map fun line =>
      if k ∈ order then (a.verdict draft.lines k line).newLine line else line := by
  induction order generalizing draft with
  | nil => simp
  | cons i order ih =>
      obtain ⟨hi, hnodup⟩ := List.nodup_cons.1 hnodup
      rw [List.foldl_cons, ih hnodup, getElem?_visit, Option.map_map]
      congr 1
      funext line
      simp only [Function.comp_apply, List.mem_cons, verdict_visit hc]
      by_cases hk : k = i
      · simp [hk, hi]
      · simp [hk]

theorem warnings_foldl_visit (hnodup : order.Nodup) (draft : Draft) :
    (order.foldl a.visit draft).warnings =
      draft.warnings ++ order.filterMap (a.warningAt? draft.lines) := by
  induction order generalizing draft with
  | nil => simp
  | cons i order ih =>
      obtain ⟨hi, hnodup⟩ := List.nodup_cons.1 hnodup
      have hrest : order.filterMap (a.warningAt? (a.visit draft i).lines) =
          order.filterMap (a.warningAt? draft.lines) :=
        List.filterMap_congr fun k hk =>
          warningAt?_visit hc draft (ne_of_mem_of_not_mem hk hi)
      rw [List.foldl_cons, ih hnodup, warnings_visit, hrest, List.append_assoc]
      cases hw : a.warningAt? draft.lines i <;> simp [hw]

end

theorem mem_warnings_iff {source : Text} {w : Warning} :
    w ∈ (a.apply source).warnings ↔ ∃ i, a.warningAt? (lines source) i = some w := by
  simp only [apply, List.mem_map, mem_warnedLines_iff, warningAt?, Option.bind_eq_some_iff,
    Option.ite_none_right_eq_some, Option.some.injEq]
  constructor
  · rintro ⟨_, ⟨i, line, rfl, hline, hv⟩, rfl⟩
    exact ⟨i, line, hline, hv, rfl⟩
  · rintro ⟨i, line, hline, hv, rfl⟩
    exact ⟨_, ⟨i, line, rfl, hline, hv⟩, rfl⟩

theorem line_of_warningAt? {ls : List Text} {i : Nat} {w : Warning}
    (h : a.warningAt? ls i = some w) : w = ⟨i + 1, a.classifier.window⟩ := by
  simp only [warningAt?, Option.bind_eq_some_iff, Option.ite_none_right_eq_some,
    Option.some.injEq] at h
  obtain ⟨line, -, -, rfl⟩ := h
  rfl

theorem pairwise_warnings (a : Assigner) (source : Text) :
    (a.apply source).warnings.Pairwise fun x y => x.line < y.line := by
  rw [apply, List.pairwise_map]
  exact a.pairwise_warnedLines source

/-- The warnings of the visits, in whatever order, are those about the plan as it was read. -/
theorem filterMap_warningAt?_perm {source : Text} {order : List Nat}
    (h : order.Perm (List.range (lines source).length)) :
    (order.filterMap (a.warningAt? (lines source))).Perm (a.apply source).warnings := by
  have hnodup : (order.filterMap (a.warningAt? (lines source))).Nodup := by
    refine List.Nodup.filterMap (fun i k w hi hk => ?_) (h.nodup_iff.2 List.nodup_range)
    have := (line_of_warningAt? hi).symm.trans (line_of_warningAt? hk)
    simpa using this
  have hnodup' : (a.apply source).warnings.Nodup :=
    (a.pairwise_warnings source).imp fun {x y} (hlt : x.line < y.line) =>
      mt (congrArg Warning.line) (Nat.ne_of_lt hlt)
  refine (List.perm_ext_iff_of_nodup hnodup hnodup').2 fun w => ?_
  rw [List.mem_filterMap, mem_warnings_iff]
  refine exists_congr fun i => and_iff_right_of_imp fun hi => ?_
  rw [h.mem_iff, List.mem_range]
  obtain ⟨line, hline, -⟩ := Option.bind_eq_some_iff.1 hi
  exact (List.getElem?_eq_some_iff.1 hline).1

/-- The warnings about a plan are determined by their set once they are sorted. -/
theorem mergeSort_eq_warnings {source : Text} {ws : List Warning}
    (h : ws.Perm (a.apply source).warnings) :
    ws.mergeSort (fun x y => x.line ≤ y.line) = (a.apply source).warnings := by
  have hsorted : (ws.mergeSort fun x y => x.line ≤ y.line).Pairwise fun x y => x.line ≤ y.line := by
    simpa using @List.pairwise_mergeSort _ (fun x y : Warning => decide (x.line ≤ y.line))
      (by simpa using fun x y z => Nat.le_trans) (by simpa using fun x y => Nat.le_total _ _) ws
  have hperm := (List.mergeSort_perm ws fun x y => x.line ≤ y.line).trans h
  refine hperm.eq_of_pairwise (fun x y hx hy hxy hyx => ?_) hsorted
    ((a.pairwise_warnings source).imp Nat.le_of_lt)
  obtain ⟨i, hi⟩ := mem_warnings_iff.1 (hperm.mem_iff.1 hx)
  obtain ⟨k, hk⟩ := mem_warnings_iff.1 hy
  obtain rfl := line_of_warningAt? hi
  obtain rfl := line_of_warningAt? hk
  simpa using Nat.le_antisymm hxy hyx

end Assigner

/-- It does not matter whether the original lines or the new ones are read. When the lines of a plan
are visited in any order and set in place, each on the strength of the lines as they are by then, the
plan gets the content that it gets otherwise, and the warnings are the same when they are sorted by
their lines. -/
theorem visits_in_any_order (config : Config) (source : Text) (order : List Nat)
    (horder : order.Perm (List.range (lines source).length)) :
    let a := Assigner.ofConfig config
    let draft := order.foldl a.visit ⟨lines source, []⟩
    unlines draft.lines = (a.apply source).content ∧
      draft.warnings.mergeSort (fun x y => x.line ≤ y.line) = (a.apply source).warnings := by
  intro a draft
  have hc : a.classifier.ReadsPaths := Classifier.readsPaths_lookahead config.lookahead
  have hnodup : order.Nodup := horder.nodup_iff.2 List.nodup_range
  constructor
  · have hlines : draft.lines = a.newLines (lines source) := by
      apply List.ext_getElem?
      intro k
      rw [Assigner.getElem?_foldl_visit hc hnodup, Assigner.newLines, List.getElem?_mapIdx]
      refine Option.map_congr fun line hline => if_pos ?_
      rw [horder.mem_iff, List.mem_range]
      exact (List.getElem?_eq_some_iff.1 hline).1
    rw [hlines]
    rfl
  · apply Assigner.mergeSort_eq_warnings
    rw [Assigner.warnings_foldl_visit hc hnodup, List.nil_append]
    exact Assigner.filterMap_warningAt?_perm horder

/-- The second line is the path of the first one and is set itself before the first one is read, and
the last line is warned about first. -/
theorem visits_in_any_order_backwards :
    let a := Assigner.ofConfig .standard
    let source := ("HTTPSampler.port\">3033\nHTTPSampler.port\">3033 HTTPSampler.path\">/graph\n" ++
      "HTTPSampler.path\">/api\nHTTPSampler.port\">3034").toList
    let draft := [3, 1, 2, 0].foldl a.visit ⟨lines source, []⟩
    [3, 1, 2, 0].Perm (List.range (lines source).length) ∧ draft.lines ≠ lines source ∧
      unlines draft.lines = (a.apply source).content ∧
      draft.warnings.mergeSort (fun x y => x.line ≤ y.line) = (a.apply source).warnings := by
  intro a source draft
  have horder : [3, 1, 2, 0].Perm (List.range (lines source).length) := by decide +kernel
  have hset : draft.lines ≠ lines source := by decide +kernel
  exact ⟨horder, hset, visits_in_any_order .standard source [3, 1, 2, 0] horder⟩

end SamplerPorts
