import SamplerPorts.Proofs.LineFates

/-!
Assigning ports to a plan that was set for other ports before. If these ports are old ports, a line
that was set is still handled, with the verdict that it would have had before, and the port that is
set now takes the place of the other one. So the plan gets the content and the warnings that it
would have got at once (`last_config_wins`).
-/

namespace SamplerPorts
open Text PortValue

namespace Assigner

/-- The second assigner handles the same lines by the same rule, and the ports that the first one
assigns are among those that it replaces. -/
structure Follows (b a : Assigner) : Prop where
  classifier_eq : b.classifier = a.classifier
  oldPorts_eq : b.config.oldPorts = a.config.oldPorts
  restPort_mem : a.config.restPort ∈ a.config.oldPorts
  graphQlPort_mem : a.config.graphQlPort ∈ a.config.oldPorts

theorem verdict_eq_set_iff {a : Assigner} {ls : List Text} {i : Nat} {line : Text} {e : Endpoint}
    {port : Port} :
    a.verdict ls i line = .set e port ↔ a.handles line = true ∧
      a.classifier.classify ls i = some e ∧ a.config.portOf? e = some port := by
  rw [verdict]
  cases a.handles line with
  | false => simp
  | true =>
      cases a.classifier.classify ls i with
      | none => simp
      | some e' =>
          cases hport : a.config.portOf? e' with
          | none =>
              simp only [hport, if_true, reduceCtorEq, Option.some.injEq, true_and, false_iff]
              rintro ⟨rfl, h⟩
              rw [hport] at h
              cases h
          | some port' =>
              simp only [hport, if_true, Verdict.set.injEq, Option.some.injEq, true_and]
              constructor
              · rintro ⟨rfl, rfl⟩
                exact ⟨rfl, hport⟩
              · rintro ⟨rfl, h⟩
                exact ⟨rfl, Option.some.inj (hport.symm.trans h)⟩

/-- A line that holds a value holds each port that it is set to, so an assigner for this port
handles it. -/
theorem handles_setAll {a : Assigner} {port : Port} (hport : port ∈ a.config.oldPorts) {line : Text}
    (hline : a.config.IsPortLine line) : a.handles (setAll (written port.toNat) line) = true :=
  (handles_iff a.config).2 ⟨port, hport, (hline.isSetTo port).2⟩

namespace Follows
variable {a b : Assigner} (h : b.Follows a)
include h

theorem handles_eq (line : Text) : b.handles line = a.handles line := by
  rw [handles, handles, h.oldPorts_eq]

theorem mem_oldPorts {e : Endpoint} {port : Port} (hport : a.config.portOf? e = some port) :
    port ∈ b.config.oldPorts := by
  rw [h.oldPorts_eq]
  cases e with
  | rest => exact Option.some.inj hport ▸ h.restPort_mem
  | graphQl => exact Option.some.inj hport ▸ h.graphQlPort_mem
  | unrecognized => cases hport

/-- Where the first assigner sets a line, the second one sets it too. -/
theorem exists_set {ls : List Text} {i : Nat} {line : Text} {e : Endpoint} {port : Port}
    (hset : a.verdict ls i line = .set e port) : ∃ port', b.verdict ls i line = .set e port' := by
  obtain ⟨hhandles, hclassify, hport⟩ := verdict_eq_set_iff.1 hset
  have hto : ∃ port', b.config.portOf? e = some port' := by
    cases e with
    | rest | graphQl => exact ⟨_, rfl⟩
    | unrecognized => cases hport
  obtain ⟨port', hport'⟩ := hto
  refine ⟨port', verdict_eq_set_iff.2 ⟨?_, ?_, hport'⟩⟩
  · rw [h.handles_eq, hhandles]
  · rw [h.classifier_eq, hclassify]

theorem handles_newLine (ls : List Text) (i : Nat) (line : Text) :
    b.handles ((a.verdict ls i line).newLine line) = b.handles line := by
  cases hv : a.verdict ls i line with
  | notAPort | unrecognized | pathless => rfl
  | set e port =>
      obtain ⟨hhandles, -, hport⟩ := verdict_eq_set_iff.1 hv
      have hline : b.config.IsPortLine line :=
        (handles_iff b.config).1 ((h.handles_eq line).trans hhandles)
      have hb : b.handles line = true := (handles_iff b.config).2 hline
      rw [hb]
      exact handles_setAll (h.mem_oldPorts hport) hline

theorem newLine_newLine (ls : List Text) (i : Nat) (line : Text) :
    (b.verdict ls i line).newLine ((a.verdict ls i line).newLine line) =
      (b.verdict ls i line).newLine line := by
  cases hv : a.verdict ls i line with
  | notAPort | unrecognized | pathless => rfl
  | set e port =>
      obtain ⟨port', hport'⟩ := h.exists_set hv
      rw [hport']
      exact setAll_setAll (isValue_written _) _ line

variable (hc : a.classifier.ReadsPaths)
include hc

/-- Every line that the first assigner leaves gets the verdict of the line that it found. -/
theorem verdict_newLines (ls : List Text) (i : Nat) (line : Text) :
    b.verdict (a.newLines ls) i ((a.verdict ls i line).newLine line) = b.verdict ls i line := by
  have hclassify : b.classifier.classify (a.newLines ls) i = b.classifier.classify ls i := by
    rw [h.classifier_eq, hc _ _ (a.ofLine?_newLines ls) i]
  rw [b.verdict_eq_of_handles (h.handles_newLine ls i line), verdict, hclassify]
  rfl

theorem newLines_newLines (ls : List Text) : b.newLines (a.newLines ls) = b.newLines ls := by
  apply List.ext_getElem
  · simp [newLines]
  · intro i _ _
    have hverdict := h.verdict_newLines hc ls i
    have hline := h.newLine_newLine ls i
    simp only [newLines, List.getElem_mapIdx] at hverdict ⊢
    rw [hverdict, hline]

theorem verdicts_content (source : Text) :
    b.verdicts (a.apply source).content = b.verdicts source := by
  rw [verdicts, verdicts, lines_content]
  apply List.ext_getElem
  · simp [newLines]
  · intro i _ _
    have hverdict := h.verdict_newLines hc (lines source) i
    simp only [newLines, List.getElem_mapIdx] at hverdict ⊢
    rw [hverdict]

theorem apply_content (source : Text) : b.apply (a.apply source).content = b.apply source := by
  have hwarned : b.warnedLines (a.apply source).content = b.warnedLines source := by
    rw [warnedLines, h.verdicts_content hc]
    rfl
  rw [apply, lines_content, h.newLines_newLines hc, hwarned]
  rfl

end Follows
end Assigner

/-- The last configuration wins. Assigning ports to a plan that was set for other ports before gives
the content and the warnings that the plan would have had if it had been set at once, as long as the
other ports are among those that are replaced. -/
theorem last_config_wins (first last : Config) (hold : last.oldPorts = first.oldPorts)
    (hlook : last.lookahead = first.lookahead) (hrest : first.restPort ∈ first.oldPorts)
    (hgraph : first.graphQlPort ∈ first.oldPorts) (source : Text) :
    let a := Assigner.ofConfig first
    let b := Assigner.ofConfig last
    (b.apply (a.apply source).content).content = (b.apply source).content ∧
      (b.apply (a.apply source).content).warnings = (b.apply source).warnings := by
  intro a b
  have hfollows : b.Follows a :=
    ⟨congrArg Classifier.lookahead hlook, hold, hrest, hgraph⟩
  have happly : b.apply (a.apply source).content = b.apply source :=
    hfollows.apply_content (Classifier.readsPaths_lookahead first.lookahead) source
  rw [happly]
  exact ⟨rfl, rfl⟩

/-- A plan that was set for the standard ports is moved to the ports 80 and 443. -/
theorem last_config_wins_moved :
    let first := Config.standard
    let last := { Config.standard with restPort := 80, graphQlPort := 443 }
    let a := Assigner.ofConfig first
    let b := Assigner.ofConfig last
    let source := "HTTPSampler.port\">3033\nHTTPSampler.path\">/graph\nHTTPSampler.port\">3035".toList
    last.oldPorts = first.oldPorts ∧ last.lookahead = first.lookahead ∧
      first.restPort ∈ first.oldPorts ∧ first.graphQlPort ∈ first.oldPorts ∧
      (a.apply source).content ≠ source ∧
      (b.apply (a.apply source).content).content = (b.apply source).content ∧
      (b.apply (a.apply source).content).warnings = (b.apply source).warnings := by
  intro first last a b source
  have hrest : first.restPort ∈ first.oldPorts := by decide
  have hgraph : first.graphQlPort ∈ first.oldPorts := by decide
  have hset : (a.apply source).content ≠ source := by decide +kernel
  exact ⟨rfl, rfl, hrest, hgraph, hset, last_config_wins first last rfl rfl hrest hgraph source⟩

end SamplerPorts
