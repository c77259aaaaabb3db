import SamplerPorts.Proofs.Reassignment

/-!
Plans with a carriage return in front of every line feed. The return is the last character of the
line in front of it (`lines_crlf`). There it belongs to no port value (`setAll_concat`) and says
nothing about a path, so each line gets the verdict that it gets without the return, and the plan is
set as if its lines ended in line feeds alone (`crlf_kept`).
-/

namespace SamplerPorts
open Text PortValue

namespace Text

/-- The text with a carriage return in front of every line feed. -/
def crlf (t : Text) : Text := t.flatMap fun c => if c = '\n' then ['\r', '\n'] else [c]

/-- The lines with a carriage return at the end of each but the last one. -/
def withReturns : List Text → List Text
  | [] => []
  | [line] => [line]
  | line :: next :: more => (line ++ ['\r']) :: withReturns (next :: more)

theorem getElem?_withReturns (ls : List Text) (i : Nat) :
    (withReturns ls)[i]? =
      ls[i]?.map fun line => if i + 1 < ls.length then line ++ ['\r'] else line := by
  induction ls using withReturns.induct generalizing i with
  | case1 => rfl
  | case2 line => cases i <;> simp [withReturns]
  | case3 line next more ih =>
      cases i with
      | zero => simp [withReturns]
      | succ i => simp [withReturns, ih]

theorem withReturns_ne_nil {ls : List Text} (h : ls ≠ []) : withReturns ls ≠ [] := by
  cases ls with
  | nil => exact absurd rfl h
  | cons line more => cases more <;> simp [withReturns]

theorem not_mem_withReturns {ls : List Text} (h : ∀ line ∈ ls, '\n' ∉ line) :
    ∀ line ∈ withReturns ls, '\n' ∉ line := by
  induction ls using withReturns.induct with
  | case1 | case2 line => exact h
  | case3 line next more ih =>
      obtain ⟨hline, hmore⟩ := List.forall_mem_cons.1 h
      exact List.forall_mem_cons.2 ⟨by simp [hline], ih hmore⟩

theorem crlf_append (t u : Text) : crlf (t ++ u) = crlf t ++ crlf u := List.flatMap_append

theorem crlf_of_not_mem {t : Text} (h : '\n' ∉ t) : crlf t = t := by
  induction t with
  | nil => rfl
  | cons c t ih =>
      obtain ⟨hc, ht⟩ := List.ne_and_not_mem_of_not_mem_cons h
      rw [crlf, List.flatMap_cons, if_neg (Ne.symm hc)]
      exact congrArg (c :: ·) (ih ht)

theorem crlf_unlines {ls : List Text} (h : ∀ line ∈ ls, '\n' ∉ line) :
    crlf (unlines ls) = unlines (withReturns ls) := by
  induction ls using withReturns.induct with
  | case1 => rfl
  | case2 line => exact crlf_of_not_mem (h line (List.mem_singleton_self line))
  | case3 line next more ih =>
      obtain ⟨hline, hmore⟩ := List.forall_mem_cons.1 h
      calc crlf (unlines (line :: next :: more))
          = crlf (line ++ ['\n'] ++ unlines (next :: more)) := rfl
        _ = line ++ ['\r', '\n'] ++ unlines (withReturns (next :: more)) := by
            rw [crlf_append, crlf_append, crlf_of_not_mem hline, ih hmore]
            rfl
        _ = unlines ((line ++ ['\r']) :: withReturns (next :: more)) := by
            rw [unlines, unlines, join_cons_of_ne_nil _ _ (withReturns_ne_nil (by simp))]
            simp

theorem lines_crlf (t : Text) : lines (crlf t) = withReturns (lines t) := by
  have hfeed : ∀ line ∈ lines t, '\n' ∉ line := fun _ => not_mem_of_mem_pieces
  conv => lhs; rw [← unlines_lines t, crlf_unlines hfeed]
  exact lines_unlines (withReturns_ne_nil (pieces_ne_nil '\n' t)) (not_mem_withReturns hfeed)

theorem has_concat {c : Char} {part : Text} (h : c ∉ part) (t : Text) :
    has part (t ++ [c]) = has part t := by
  rw [Bool.eq_iff_iff, has_iff, has_iff, List.infix_concat_iff, List.suffix_concat_iff]
  constructor
  · rintro ((rfl | ⟨front, rfl, -⟩) | hinfix)
    · exact List.nil_infix
    · simp at h
    · exact hinfix
  · exact .inr

end Text

namespace PortValue
variable {c : Char} (hc : isDecimalDigit c = false)
include hc

/-- A port value ends in a digit, so no other character behind a text completes one. -/
theorem after?_concat_of_eq_none {t : Text} (h : after? t = none) : after? (t ++ [c]) = none := by
  rw [← Option.not_isSome_iff_eq_none, after?_isSome_iff] at h ⊢
  rintro ⟨between, digit, rest, hbetween, hdigit, ht⟩
  obtain rfl | ⟨front, last, rfl⟩ := List.eq_nil_or_concat rest
  · have hsplit : t ++ [c] = "HTTPSampler".toList ++ between :: "port\">".toList ++ [digit] := by
      simpa using ht
    obtain rfl := List.singleton_inj.1 (List.append_inj' hsplit rfl).2
    exact ne_of_isDecimalDigit hdigit hc rfl
  · have hsplit : t ++ [c] =
        "HTTPSampler".toList ++ between :: ("port\">".toList ++ digit :: front) ++ [last] := by
      simpa using ht
    exact h ⟨between, digit, front, hbetween, hdigit, (List.append_inj' hsplit rfl).1⟩

theorem setAll_concat (v t : Text) : setAll v (t ++ [c]) = setAll v t ++ [c] := by
  induction t using valueInduction with
  | nil =>
      rw [List.nil_append, setAll_cons v (after?_concat_of_eq_none hc (t := []) rfl), setAll_nil]
      rfl
  | value t rest hr ih =>
      obtain ⟨m, hm, hrest, rfl⟩ := eq_append_of_after? hr
      have hlong : after? (m ++ (rest ++ [c])) = some (rest ++ [c]) := by
        apply after?_append hm
        cases rest with
        | nil => simpa [NoDigitFirst] using hc
        | cons d rest => exact hrest
      rw [List.append_assoc, setAll_of_after? v hlong, ih, setAll_of_after? v hr,
        List.append_assoc]
  | char d rest hr ih =>
      have hlong := after?_concat_of_eq_none hc hr
      rw [List.cons_append] at hlong ⊢
      rw [setAll_cons v hlong, ih, setAll_cons v hr, List.cons_append]

end PortValue

theorem Endpoint.ofLine?_return (line : Text) : ofLine? (line ++ ['\r']) = ofLine? line := by
  have hreturn {part : Text} (h : '\r' ∉ part) : has part (line ++ ['\r']) = has part line :=
    has_concat h line
  simp only [ofLine?, ofPathLine, hreturn (by decide : '\r' ∉ pathKey),
    hreturn (by decide : '\r' ∉ "/api".toList), hreturn (by decide : '\r' ∉ "/graph".toList)]

theorem Endpoint.ofLine?_withReturns (ls : List Text) :
    (withReturns ls).map ofLine? = ls.map ofLine? := by
  induction ls using withReturns.induct with
  | case1 | case2 line => rfl
  | case3 line next more ih =>
      rw [withReturns, List.map_cons, ofLine?_return, ih]
      rfl

theorem Verdict.newLine_return (v : Verdict) (line : Text) :
    v.newLine (line ++ ['\r']) = v.newLine line ++ ['\r'] := by
  cases v with
  | set e port => exact setAll_concat (by decide) _ line
  | notAPort | unrecognized | pathless => rfl

namespace Assigner
variable {a : Assigner}

theorem handles_return (line : Text) : a.handles (line ++ ['\r']) = a.handles line := by
  have hwritten (port : Nat) : has (written port) (line ++ ['\r']) = has (written port) line :=
    has_concat (not_mem_written (by decide) (by decide) port) line
  simp only [handles, holdsOneOf, hwritten]

variable (hc : a.classifier.ReadsPaths)
include hc

theorem verdict_withReturns (ls : List Text) (i : Nat) (line : Text) :
    a.verdict (withReturns ls) i line = a.verdict ls i line := by
  rw [verdict, hc _ _ (Endpoint.ofLine?_withReturns ls) i]
  rfl

theorem verdict_return (ls : List Text) (i : Nat) (line : Text) :
    a.verdict (withReturns ls) i (line ++ ['\r']) = a.verdict ls i line := by
  rw [a.verdict_eq_of_handles (handles_return line), verdict_withReturns hc]

theorem newLines_withReturns (ls : List Text) :
    a.newLines (withReturns ls) = withReturns (a.newLines ls) := by
  apply List.ext_getElem?
  intro i
  simp only [newLines, List.getElem?_mapIdx, getElem?_withReturns, Option.map_map,
    List.length_mapIdx]
  congr 1
  funext line
  simp only [Function.comp_apply]
  split
  · rw [verdict_return hc, Verdict.newLine_return]
  · rw [verdict_withReturns hc]

theorem verdicts_crlf (source : Text) : a.verdicts (crlf source) = a.verdicts source := by
  apply List.ext_getElem?
  intro i
  simp only [verdicts, lines_crlf, List.getElem?_mapIdx, getElem?_withReturns, Option.map_map]
  congr 1
  funext line
  simp only [Function.comp_apply]
  split
  · exact verdict_return hc ..
  · exact verdict_withReturns hc ..

theorem content_crlf (source : Text) :
    (a.apply (crlf source)).content = crlf (a.apply source).content := by
  calc (a.apply (crlf source)).content
      = unlines (a.newLines (lines (crlf source))) := rfl
    _ = unlines (withReturns (a.newLines (lines source))) := by
        rw [lines_crlf, newLines_withReturns hc]
    _ = crlf (unlines (a.newLines (lines source))) :=
        (crlf_unlines (a.not_mem_newLines source)).symm
    _ = crlf (a.apply source).content := rfl

end Assigner

/-- A plan whose lines end in a carriage return and a line feed is set like the one with line feeds
alone, and the same lines are warned about. Carriage returns that were there before make no
difference. -/
theorem crlf_kept (config : Config) (source : Text) :
    let a := Assigner.ofConfig config
    (a.apply (crlf source)).content = crlf (a.apply source).content ∧
      (a.apply (crlf source)).warnings = (a.apply source).warnings := by
  intro a
  have hc : a.classifier.ReadsPaths := Classifier.readsPaths_lookahead config.lookahead
  refine ⟨Assigner.content_crlf hc source, ?_⟩
  simp only [Assigner.apply, Assigner.warnedLines, Assigner.verdicts_crlf hc]

end SamplerPorts
