import SamplerPorts.Assigner
import SamplerPorts.Proofs.ValueSetting

/-!
Assigning ports to a plan that was set before. Setting the values of a line keeps what the line
says about a path, so a rule that reads nothing else gives every line of the new plan the answer
that it gave before. A line that was set is set to the same port again or is none of the
assigner's lines any more; either way it stays as it is (`newLines_newLines`).
-/

namespace SamplerPorts
open Text PortValue

namespace Text

theorem eq_nil_of_pieces {sep : Char} {t : Text} (h : pieces sep t = [[]]) : t = [] := by
  rw [← join_pieces sep t, h]
  rfl

theorem pieces_of_not_mem {sep : Char} {t : Text} (h : sep ∉ t) : pieces sep t = [t] := by
  induction t with
  | nil => rfl
  | cons c t ih =>
      obtain ⟨hc, ht⟩ := List.ne_and_not_mem_of_not_mem_cons h
      simp [pieces, Ne.symm hc, ih ht]

theorem pieces_append_sep (sep : Char) (t u : Text) :
    pieces sep (t ++ sep :: u) = pieces sep t ++ pieces sep u := by
  induction t with
  | nil => simp [pieces]
  | cons c t ih =>
      simp only [List.cons_append, pieces, ih]
      split
      · rfl
      · cases ht : pieces sep t with
        | nil => exact absurd ht (pieces_ne_nil sep t)
        | cons piece more => rfl

theorem pieces_append_cons {sep : Char} {piece : Text} (h : sep ∉ piece) (rest : Text) :
    pieces sep (piece ++ sep :: rest) = piece :: pieces sep rest := by
  rw [pieces_append_sep, pieces_of_not_mem h, List.singleton_append]

theorem pieces_join {sep : Char} {ps : List Text} (hne : ps ≠ []) (h : ∀ p ∈ ps, sep ∉ p) :
    pieces sep (join [sep] ps) = ps := by
  induction ps with
  | nil => exact absurd rfl hne
  | cons p ps ih =>
      have hp : sep ∉ p := h p (List.mem_cons_self ..)
      cases ps with
      | nil => exact pieces_of_not_mem hp
      | cons q ps =>
          have ih := ih (by simp) (fun x hx => h x (List.mem_cons_of_mem _ hx))
          rw [join_cons_of_ne_nil _ _ (by simp), List.append_assoc, List.singleton_append,
            pieces_append_cons hp, ih]

theorem lines_unlines {ls : List Text} (hne : ls ≠ []) (h : ∀ l ∈ ls, '\n' ∉ l) :
    lines (unlines ls) = ls := pieces_join hne h

end Text

namespace Endpoint

theorem apart_pathKey : Apart pathKey := by
  have : pathKey = 'H' :: 'T' :: "TPSampler.path".toList := by decide
  rw [this]
  apply apart_of_head (by decide) (by decide) (by decide) (by decide)
  intro c t
  simp [List.isPrefixOf]

theorem apart_api : Apart "/api".toList := by
  apply apart_of_head (a := '/') (b := 'a') (p := "pi".toList) (by decide) (by decide) (by decide)
    (by decide)
  intro c t
  simp [List.isPrefixOf]

theorem apart_graph : Apart "/graph".toList := by
  apply apart_of_head (a := '/') (b := 'g') (p := "raph".toList) (by decide) (by decide) (by decide)
    (by decide)
  intro c t
  simp [List.isPrefixOf]

/-- What a line says about a path: nothing, or the endpoint that its path belongs to. -/
def ofLine? (line : Text) : Option Endpoint :=
  if has pathKey line then some (ofPathLine line) else none

theorem ofLine?_setAll {v : Text} (hv : IsValue v) (line : Text) :
    ofLine? (setAll v line) = ofLine? line := by
  simp only [ofLine?, ofPathLine, has_setAll apart_pathKey hv, has_setAll apart_api hv,
    has_setAll apart_graph hv]

end Endpoint

/-- The rule reads nothing but what the lines say about paths. -/
def Classifier.ReadsPaths (c : Classifier) : Prop :=
  ∀ ls ms : List Text, ls.map Endpoint.ofLine? = ms.map Endpoint.ofLine? →
    ∀ i, c.classify ls i = c.classify ms i

theorem Classifier.classify_lookahead (window : Nat) (ls : List Text) (i : Nat) :
    (lookahead window).classify ls i =
      (((ls.map Endpoint.ofLine?).drop (i + 1)).take window).findSome? id := by
  simp only [lookahead, ← List.map_drop, ← List.map_take, List.findSome?_map]
  induction (ls.drop (i + 1)).take window with
  | nil => rfl
  | cons l ls ih => by_cases h : has Endpoint.pathKey l <;> simp_all [Endpoint.ofLine?]

theorem Classifier.readsPaths_lookahead (window : Nat) : (lookahead window).ReadsPaths := by
  intro ls ms h i
  rw [classify_lookahead, classify_lookahead, h]

namespace Verdict

theorem not_mem_newLine (v : Verdict) {line : Text} (h : '\n' ∉ line) : '\n' ∉ v.newLine line := by
  cases v with
  | set e port => exact not_mem_setAll (isValue_written _) h
  | notAPort | unrecognized | pathless => exact h

theorem newLine_newLine (v : Verdict) (line : Text) :
    v.newLine (v.newLine line) = v.newLine line := by
  cases v with
  | set e port => exact setAll_setAll (isValue_written _) _ line
  | notAPort | unrecognized | pathless => rfl

theorem ofLine?_newLine (v : Verdict) (line : Text) :
    Endpoint.ofLine? (v.newLine line) = Endpoint.ofLine? line := by
  cases v with
  | set e port => exact Endpoint.ofLine?_setAll (isValue_written _) line
  | notAPort | unrecognized | pathless => rfl

end Verdict

namespace Assigner
variable (a : Assigner)

theorem not_mem_newLines (source : Text) : ∀ l ∈ a.newLines (lines source), '\n' ∉ l := by
  intro l hl
  obtain ⟨i, hi, rfl⟩ := List.mem_mapIdx.1 hl
  exact Verdict.not_mem_newLine _ (not_mem_of_mem_pieces (List.getElem_mem hi))

theorem lines_content (source : Text) :
    lines (a.apply source).content = a.newLines (lines source) := by
  apply lines_unlines _ (a.not_mem_newLines source)
  have : lines source ≠ [] := pieces_ne_nil '\n' source
  simpa [newLines] using this

theorem ofLine?_newLines (ls : List Text) :
    (a.newLines ls).map Endpoint.ofLine? = ls.map Endpoint.ofLine? := by
  apply List.ext_getElem
  · simp [newLines]
  · intro i _ _
    simp [newLines, Verdict.ofLine?_newLine]

theorem warnedLines_eq (source : Text) :
    a.warnedLines source = (lines source).zipIdx.filterMap fun p =>
      if a.verdict (lines source) p.2 p.1 = .pathless then some (p.2 + 1) else none := by
  have : (a.verdicts source).zipIdx = (lines source).zipIdx.map fun p =>
      (a.verdict (lines source) p.2 p.1, p.2) := by
    apply List.ext_getElem
    · simp [verdicts]
    · intro i _ _
      simp [verdicts]
  rw [warnedLines, this, List.filterMap_map]
  rfl

theorem verdict_eq_of_handles {x y : Text} (h : a.handles x = a.handles y) (ls : List Text)
    (i : Nat) : a.verdict ls i x = a.verdict ls i y := by
  rw [verdict, verdict, h]

theorem verdict_of_not_handles {line : Text} (h : a.handles line = false) (ls : List Text)
    (i : Nat) : a.verdict ls i line = .notAPort := by
  simp [verdict, h]

/-- A new line gets the verdict of the old one, unless it was set and is not handled any more. -/
theorem verdict_newLine (ls : List Text) (i : Nat) (line : Text) :
    let v := a.verdict ls i line
    a.verdict ls i (v.newLine line) = v ∨
      a.verdict ls i (v.newLine line) = .notAPort ∧ ∃ e port, v = .set e port := by
  intro v
  cases hv : v with
  | notAPort | unrecognized | pathless => exact .inl hv
  | set e port =>
      rw [← hv]
      cases hnew : a.handles (v.newLine line) with
      | false => exact .inr ⟨a.verdict_of_not_handles hnew ls i, e, port, hv⟩
      | true =>
          left
          apply a.verdict_eq_of_handles
          cases hold : a.handles line with
          | true => exact hnew
          | false =>
              rw [show v = _ from a.verdict_of_not_handles hold ls i] at hv
              cases hv

theorem newLine_verdict_newLine (ls : List Text) (i : Nat) (line : Text) :
    let v := a.verdict ls i line
    (a.verdict ls i (v.newLine line)).newLine (v.newLine line) = v.newLine line := by
  intro v
  obtain h | ⟨h, -⟩ := a.verdict_newLine ls i line
  · rw [h]
    exact v.newLine_newLine line
  · rw [h]
    rfl

section
variable {a} (hc : a.classifier.ReadsPaths)
include hc

theorem verdict_newLines (ls : List Text) (i : Nat) (line : Text) :
    a.verdict (a.newLines ls) i line = a.verdict ls i line := by
  rw [verdict, hc _ _ (a.ofLine?_newLines ls) i]
  rfl

theorem newLines_newLines (ls : List Text) : a.newLines (a.newLines ls) = a.newLines ls := by
  apply List.ext_getElem
  · simp [newLines]
  · intro i _ _
    have := a.newLine_verdict_newLine ls i
    simp only [newLines, List.getElem_mapIdx] at this ⊢
    exact (congrArg (Verdict.newLine · _) (verdict_newLines hc ls i _)).trans (this _)

theorem warnedLines_content (source : Text) :
    a.warnedLines (a.apply source).content = a.warnedLines source := by
  rw [warnedLines_eq, warnedLines_eq, lines_content]
  have hz : (a.newLines (lines source)).zipIdx = (lines source).zipIdx.map fun p =>
      ((a.verdict (lines source) p.2 p.1).newLine p.1, p.2) := by
    apply List.ext_getElem
    · simp [newLines]
    · intro i _ _
      simp [newLines]
  rw [hz, List.filterMap_map]
  congr 1
  funext p
  simp only [Function.comp_apply, verdict_newLines hc]
  obtain h | ⟨h, e, port, hset⟩ := a.verdict_newLine (lines source) p.2 p.1
  · rw [h]
  · rw [h, hset]
    simp

theorem apply_content (source : Text) : a.apply (a.apply source).content = a.apply source := by
  rw [apply, lines_content, newLines_newLines hc, warnedLines_content hc]
  rfl

end
end Assigner

/-- Assigning ports to a plan that was set before changes nothing, and the same lines are warned
about, whatever the ports and the lookahead are. -/
theorem reassign_eq_assign (config : Config) (source : Text) :
    let a := Assigner.ofConfig config
    (a.apply (a.apply source).content).content = (a.apply source).content ∧
      (a.apply (a.apply source).content).warnings = (a.apply source).warnings := by
  intro a
  have : a.apply (a.apply source).content = a.apply source :=
    Assigner.apply_content (Classifier.readsPaths_lookahead config.lookahead) source
  rw [this]
  exact ⟨rfl, rfl⟩

end SamplerPorts
