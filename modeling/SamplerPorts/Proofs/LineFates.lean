import Mathlib.Logic.ExistsUnique
import SamplerPorts.Proofs.Reassignment

/-!
What becomes of each line of a plan. The path of a port is the first path line in the window behind
it (`FirstPath`), and this path alone decides: the port is set for one of the two services, or the
line is kept, with a warning only where there is no path at all (`existsUnique_fate`). Lines are
never joined, cut or moved, and the warnings come in the order of the lines
(`lines_changed_and_warned`).
-/

namespace SamplerPorts
open Text PortValue

namespace Text

/-- A text ends with the separator if its last piece is empty and not the only one. -/
theorem getLast?_eq_iff {sep : Char} {t : Text} :
    t.getLast? = some sep ↔ 1 < (pieces sep t).length ∧ (pieces sep t).getLast? = some [] := by
  induction t with
  | nil => simp [pieces]
  | cons c t ih =>
      by_cases ht : t = []
      · subst ht
        by_cases hc : c = sep <;> simp [pieces, hc]
      · rw [List.getLast?_cons_of_ne_nil ht, ih]
        simp only [pieces]
        cases hp : pieces sep t with
        | nil => exact absurd hp (pieces_ne_nil sep t)
        | cons piece more =>
            cases more with
            | nil =>
                have hne : piece ≠ [] := by
                  rintro rfl
                  exact ht (eq_nil_of_pieces hp)
                by_cases hc : c = sep <;> simp [hc, hne]
            | cons next more => by_cases hc : c = sep <;> simp [hc]

end Text

namespace PortValue

theorem setAll_eq_nil_iff {v : Text} (hv : IsValue v) {t : Text} : setAll v t = [] ↔ t = [] := by
  induction t using valueInduction with
  | nil => simp [setAll_nil]
  | value t rest h =>
      rw [setAll_of_after? v h]
      obtain ⟨x, rfl⟩ := hv.eq_cons
      obtain ⟨m, hm, -, rfl⟩ := eq_append_of_after? h
      obtain ⟨y, rfl⟩ := hm.eq_cons
      simp
  | char c rest h => simp [setAll_cons v h]

/-- A line that holds a value holds the new one after it is set. -/
theorem infix_setAll {v m : Text} (hm : IsValue m) {t : Text} (h : m <:+: t) :
    v <:+: setAll v t := by
  induction t using valueInduction with
  | nil =>
      obtain ⟨x, rfl⟩ := hm.eq_cons
      simp at h
  | value t rest hr =>
      rw [setAll_of_after? v hr]
      exact (List.prefix_append ..).isInfix
  | char c rest hr ih =>
      rw [setAll_cons v hr]
      obtain hprefix | hinfix := List.infix_cons_iff.1 h
      · obtain ⟨x, hx⟩ := hprefix
        obtain ⟨b, digits, hb, hne, hd, rfl⟩ := hm
        obtain ⟨digit, digits, rfl⟩ := List.exists_cons_of_ne_nil hne
        have hsome : (after? (c :: rest)).isSome :=
          after?_isSome_iff.2 ⟨b, digit, digits ++ x, hb, hd digit (by simp), by simp [← hx]⟩
        rw [hr] at hsome
        cases hsome
      · exact List.infix_cons (ih hinfix)

end PortValue

/-- The line is the first path line among the `w` lines behind line `i`, as far as there are so
many. -/
def FirstPath (ls : List Text) (w i : Nat) (path : Text) : Prop :=
  ∃ j, i < j ∧ j ≤ i + w ∧ ls[j]? = some path ∧ Endpoint.pathKey <:+: path ∧
    ∀ k line, i < k → k < j → ls[k]? = some line → ¬ Endpoint.pathKey <:+: line

/-- The line holds the value of an old port, perhaps with more digits behind it. -/
def Config.IsPortLine (config : Config) (line : Text) : Prop :=
  ∃ port ∈ config.oldPorts, written port.toNat <:+: line

/-- The new line has the port in the place of every port value of the old one, and it has one. -/
def IsSetTo (port : Port) (old new : Text) : Prop :=
  new = setAll (written port.toNat) old ∧ written port.toNat <:+: new

theorem Config.IsPortLine.isSetTo {config : Config} {line : Text} (h : config.IsPortLine line)
    (port : Port) : IsSetTo port line (setAll (written port.toNat) line) := by
  obtain ⟨old, -, hold⟩ := h
  exact ⟨rfl, infix_setAll (isValue_written old.toNat) hold⟩

theorem find?_window_eq_some_iff {ls : List Text} {w i : Nat} {path : Text} :
    ((ls.drop (i + 1)).take w).find? (has Endpoint.pathKey) = some path ↔ FirstPath ls w i path := by
  rw [List.find?_eq_some_iff_getElem]
  constructor
  · rintro ⟨hpath, m, hm, hget, hbefore⟩
    rw [List.length_take, List.length_drop] at hm
    refine ⟨i + 1 + m, by omega, by omega, ?_, has_iff.1 hpath, ?_⟩
    · rw [List.getElem_take, List.getElem_drop] at hget
      rw [← hget, List.getElem?_eq_getElem]
    · intro k line hik hkj hline
      obtain ⟨hk, rfl⟩ := List.getElem?_eq_some_iff.1 hline
      have := hbefore (k - (i + 1)) (by omega)
      rw [List.getElem_take, List.getElem_drop] at this
      have hindex : i + 1 + (k - (i + 1)) = k := by omega
      simp only [hindex] at this
      rw [← has_iff]
      simpa using this
  · rintro ⟨j, hij, hjw, hget, hpath, hbefore⟩
    obtain ⟨hj, hget⟩ := List.getElem?_eq_some_iff.1 hget
    refine ⟨has_iff.2 hpath, j - (i + 1), ?_, ?_, ?_⟩
    · rw [List.length_take, List.length_drop]
      omega
    · rw [List.getElem_take, List.getElem_drop]
      have hindex : i + 1 + (j - (i + 1)) = j := by omega
      simp only [hindex, hget]
    · intro m hm
      rw [List.getElem_take, List.getElem_drop]
      have := hbefore (i + 1 + m) _ (by omega) (by omega) (List.getElem?_eq_getElem (by omega))
      rw [← has_iff] at this
      simpa using this

theorem FirstPath.unique {ls : List Text} {w i : Nat} {path path' : Text}
    (h : FirstPath ls w i path) (h' : FirstPath ls w i path') : path = path' :=
  Option.some.inj ((find?_window_eq_some_iff.2 h).symm.trans (find?_window_eq_some_iff.2 h'))

namespace Assigner
variable (a : Assigner) (config : Config) {ls : List Text} {i : Nat} {line path : Text}

theorem getElem?_lines_content (source : Text) (i : Nat) :
    (lines (a.apply source).content)[i]? =
      (lines source)[i]?.map fun line => (a.verdict (lines source) i line).newLine line := by
  rw [lines_content, newLines, List.getElem?_mapIdx]

theorem mem_warnedLines_iff {source : Text} {n : Nat} :
    n ∈ a.warnedLines source ↔ ∃ i line, n = i + 1 ∧ (lines source)[i]? = some line ∧
      a.verdict (lines source) i line = .pathless := by
  rw [warnedLines_eq, List.mem_filterMap]
  constructor
  · rintro ⟨⟨line, i⟩, hmem, hwarned⟩
    rw [Option.ite_none_right_eq_some] at hwarned
    exact ⟨i, line, (Option.some.inj hwarned.2).symm, List.mem_zipIdx_iff_getElem?.1 hmem,
      hwarned.1⟩
  · rintro ⟨i, line, rfl, hline, hverdict⟩
    exact ⟨(line, i), List.mem_zipIdx_iff_getElem?.2 hline, if_pos hverdict⟩

theorem succ_mem_warnedLines_iff {source : Text} (hline : (lines source)[i]? = some line) :
    i + 1 ∈ a.warnedLines source ↔ a.verdict (lines source) i line = .pathless := by
  rw [mem_warnedLines_iff]
  constructor
  · rintro ⟨j, line', hj, hline', hpathless⟩
    obtain rfl : i = j := by omega
    obtain rfl : line = line' := Option.some.inj (hline.symm.trans hline')
    exact hpathless
  · intro hpathless
    exact ⟨i, line, rfl, hline, hpathless⟩

theorem map_line_warnings (source : Text) :
    (a.apply source).warnings.map Warning.line = a.warnedLines source := by
  simp [apply, Function.comp_def]

theorem pairwise_warnedLines (source : Text) : (a.warnedLines source).Pairwise (· < ·) := by
  have hindex : ((lines source).zipIdx).Pairwise fun p q => p.2 < q.2 := by
    rw [← List.pairwise_map, List.zipIdx_map_snd]
    exact List.pairwise_lt_range'
  rw [warnedLines_eq]
  refine hindex.filterMap _ ?_
  intro p q hpq m hm n hn
  rw [Option.ite_none_right_eq_some] at hm hn
  have := Option.some.inj hm.2
  have := Option.some.inj hn.2
  omega

theorem newLine_eq_nil_iff (v : Verdict) (line : Text) : v.newLine line = [] ↔ line = [] := by
  cases v with
  | set e port => exact setAll_eq_nil_iff (isValue_written _)
  | notAPort | unrecognized | pathless => rfl

/-- The new plan ends with a line feed if the old one did. -/
theorem getLast?_content_iff (source : Text) :
    (a.apply source).content.getLast? = some '\n' ↔ source.getLast? = some '\n' := by
  have hlast : (a.newLines (lines source)).getLast? = some [] ↔
      (lines source).getLast? = some [] := by
    rw [newLines, List.getLast?_mapIdx, Option.map_eq_some_iff]
    constructor
    · rintro ⟨line, hline, hnew⟩
      rw [hline, (newLine_eq_nil_iff _ line).1 hnew]
    · intro h
      exact ⟨[], h, (newLine_eq_nil_iff _ []).2 rfl⟩
  rw [getLast?_eq_iff, getLast?_eq_iff, show pieces '\n' (a.apply source).content = _ from
    a.lines_content source, hlast]
  simp only [newLines, List.length_mapIdx, lines]

theorem handles_iff : (ofConfig config).handles line = true ↔ config.IsPortLine line := by
  simp only [handles, ofConfig, holdsOneOf, List.any_map, List.any_eq_true, Function.comp_apply,
    has_iff, Config.IsPortLine]

theorem verdict_of_not_isPortLine (h : ¬ config.IsPortLine line) :
    (ofConfig config).verdict ls i line = .notAPort := by
  rw [verdict, if_neg (mt (handles_iff config).1 h)]

theorem verdict_of_firstPath (hport : config.IsPortLine line)
    (h : FirstPath ls config.lookahead i path) :
    (ofConfig config).verdict ls i line =
      match config.portOf? (Endpoint.ofPathLine path) with
      | some port => .set (Endpoint.ofPathLine path) port
      | none => .unrecognized := by
  have hclassify : (ofConfig config).classifier.classify ls i = some (Endpoint.ofPathLine path) :=
    congrArg (Option.map Endpoint.ofPathLine) (find?_window_eq_some_iff.2 h)
  rw [verdict, if_pos ((handles_iff config).2 hport), hclassify]
  rfl

theorem verdict_of_no_path (hport : config.IsPortLine line)
    (h : ¬ ∃ path, FirstPath ls config.lookahead i path) :
    (ofConfig config).verdict ls i line = .pathless := by
  have hfind : ((ls.drop (i + 1)).take config.lookahead).find? (has Endpoint.pathKey) = none := by
    rw [Option.eq_none_iff_forall_ne_some]
    intro path hpath
    exact h ⟨path, find?_window_eq_some_iff.1 hpath⟩
  have hclassify : (ofConfig config).classifier.classify ls i = none :=
    congrArg (Option.map Endpoint.ofPathLine) hfind
  rw [verdict, if_pos ((handles_iff config).2 hport), hclassify]

theorem verdict_eq_pathless_iff :
    (ofConfig config).verdict ls i line = .pathless ↔
      config.IsPortLine line ∧ ¬ ∃ path, FirstPath ls config.lookahead i path := by
  constructor
  · intro h
    by_cases hport : config.IsPortLine line
    · refine ⟨hport, ?_⟩
      rintro ⟨path, hpath⟩
      rw [verdict_of_firstPath config hport hpath] at h
      split at h <;> cases h
    · rw [verdict_of_not_isPortLine config hport] at h
      cases h
  · rintro ⟨hport, hnone⟩
    exact verdict_of_no_path config hport hnone

end Assigner

/-- What can become of a line with an old port. -/
inductive Fate where
  | setToRest
  | setToGraphQl
  | kept
  | warnedAbout

namespace Fate

/-- What the path of line `i` must be for the fate. -/
def Fits (ls : List Text) (w i : Nat) : Fate → Prop
  | setToRest => ∃ path, FirstPath ls w i path ∧ "/api".toList <:+: path
  | setToGraphQl =>
      ∃ path, FirstPath ls w i path ∧ ¬ "/api".toList <:+: path ∧ "/graph".toList <:+: path
  | kept =>
      ∃ path, FirstPath ls w i path ∧ ¬ "/api".toList <:+: path ∧ ¬ "/graph".toList <:+: path
  | warnedAbout => ¬ ∃ path, FirstPath ls w i path

/-- What the fate makes of the line. -/
def Makes (config : Config) (old new : Text) : Fate → Prop
  | setToRest => IsSetTo config.restPort old new
  | setToGraphQl => IsSetTo config.graphQlPort old new
  | kept | warnedAbout => new = old

/-- The fate has come to line `i` of a plan. -/
def Befalls (config : Config) (source : Text) (i : Nat) (line : Text) (fate : Fate) : Prop :=
  let out := (Assigner.ofConfig config).apply source
  fate.Fits (lines source) config.lookahead i ∧
    (∃ new, (lines out.content)[i]? = some new ∧ fate.Makes config line new) ∧
    (i + 1 ∈ out.warnings.map Warning.line ↔ fate = warnedAbout)

variable {ls : List Text} {w i : Nat} {path : Text}

theorem fits_iff (h : FirstPath ls w i path) (fate : Fate) :
    fate.Fits ls w i ↔
      match fate with
      | setToRest => "/api".toList <:+: path
      | setToGraphQl => ¬ "/api".toList <:+: path ∧ "/graph".toList <:+: path
      | kept => ¬ "/api".toList <:+: path ∧ ¬ "/graph".toList <:+: path
      | warnedAbout => False := by
  have hunique {P : Text → Prop} : (∃ path, FirstPath ls w i path ∧ P path) ↔ P path :=
    ⟨fun ⟨path', h', hP⟩ => h'.unique h ▸ hP, fun hP => ⟨path, h, hP⟩⟩
  cases fate with
  | setToRest | setToGraphQl | kept => exact hunique
  | warnedAbout => exact iff_of_false (not_not_intro ⟨path, h⟩) id

theorem existsUnique_fits (ls : List Text) (w i : Nat) : ∃! fate : Fate, fate.Fits ls w i := by
  by_cases h : ∃ path, FirstPath ls w i path
  · obtain ⟨path, h⟩ := h
    simp only [fits_iff h]
    by_cases hapi : "/api".toList <:+: path
    · exact ⟨setToRest, hapi, fun fate hf => by cases fate <;> simp_all⟩
    · by_cases hgraph : "/graph".toList <:+: path
      · exact ⟨setToGraphQl, ⟨hapi, hgraph⟩, fun fate hf => by cases fate <;> simp_all⟩
      · exact ⟨kept, ⟨hapi, hgraph⟩, fun fate hf => by cases fate <;> simp_all⟩
  · refine ⟨warnedAbout, h, fun fate hf => ?_⟩
    cases fate with
    | warnedAbout => rfl
    | setToRest | setToGraphQl | kept =>
        obtain ⟨path, hpath, -⟩ := hf
        exact absurd ⟨path, hpath⟩ h

def verdict (config : Config) : Fate → Verdict
  | setToRest => .set .rest config.restPort
  | setToGraphQl => .set .graphQl config.graphQlPort
  | kept => .unrecognized
  | warnedAbout => .pathless

variable {config : Config} {source line : Text} {fate : Fate}

theorem verdict_of_fits (hport : config.IsPortLine line)
    (h : fate.Fits ls config.lookahead i) :
    (Assigner.ofConfig config).verdict ls i line = fate.verdict config := by
  cases fate with
  | setToRest =>
      obtain ⟨path, hpath, hapi⟩ := h
      have hend : Endpoint.ofPathLine path = .rest := if_pos (has_iff.2 hapi)
      rw [Assigner.verdict_of_firstPath config hport hpath, hend]
      rfl
  | setToGraphQl =>
      obtain ⟨path, hpath, hapi, hgraph⟩ := h
      have hend : Endpoint.ofPathLine path = .graphQl :=
        (if_neg (mt has_iff.1 hapi)).trans (if_pos (has_iff.2 hgraph))
      rw [Assigner.verdict_of_firstPath config hport hpath, hend]
      rfl
  | kept =>
      obtain ⟨path, hpath, hapi, hgraph⟩ := h
      have hend : Endpoint.ofPathLine path = .unrecognized :=
        (if_neg (mt has_iff.1 hapi)).trans (if_neg (mt has_iff.1 hgraph))
      rw [Assigner.verdict_of_firstPath config hport hpath, hend]
      rfl
  | warnedAbout => exact Assigner.verdict_of_no_path config hport h

theorem makes_newLine (hport : config.IsPortLine line) (fate : Fate) :
    fate.Makes config line ((fate.verdict config).newLine line) := by
  cases fate with
  | setToRest | setToGraphQl => exact hport.isSetTo _
  | kept | warnedAbout => rfl

theorem verdict_eq_pathless_iff (fate : Fate) :
    fate.verdict config = .pathless ↔ fate = warnedAbout := by
  cases fate <;> simp [verdict]

theorem befalls_of_fits (hline : (lines source)[i]? = some line) (hport : config.IsPortLine line)
    (h : fate.Fits (lines source) config.lookahead i) : fate.Befalls config source i line := by
  have hverdict := verdict_of_fits hport h
  refine ⟨h, ⟨_, ?_, makes_newLine hport fate⟩, ?_⟩
  · rw [Assigner.getElem?_lines_content, hline, Option.map_some, hverdict]
  · rw [Assigner.map_line_warnings, Assigner.succ_mem_warnedLines_iff _ hline, hverdict,
      verdict_eq_pathless_iff]

end Fate

theorem existsUnique_fate {config : Config} {source line : Text} {i : Nat}
    (hline : (lines source)[i]? = some line) (hport : config.IsPortLine line) :
    ∃! fate : Fate, fate.Befalls config source i line := by
  obtain ⟨fate, hfits, hunique⟩ := Fate.existsUnique_fits (lines source) config.lookahead i
  exact ⟨fate, Fate.befalls_of_fits hline hport hfits, fun other h => hunique other h.1⟩

/-- A line that was changed held an old port and has a path of one of the services. -/
theorem changed_line {config : Config} {source line : Text} {i : Nat}
    (hline : (lines source)[i]? = some line)
    (hnew : (lines ((Assigner.ofConfig config).apply source).content)[i]? ≠ some line) :
    config.IsPortLine line ∧ ∃ path, FirstPath (lines source) config.lookahead i path ∧
      ("/api".toList <:+: path ∨ "/graph".toList <:+: path) := by
  rw [Assigner.getElem?_lines_content, hline, Option.map_some, ne_eq, Option.some.injEq] at hnew
  by_cases hport : config.IsPortLine line
  · refine ⟨hport, ?_⟩
    obtain ⟨fate, hfits, -⟩ := Fate.existsUnique_fits (lines source) config.lookahead i
    rw [Fate.verdict_of_fits hport hfits] at hnew
    cases fate with
    | setToRest =>
        obtain ⟨path, hpath, hapi⟩ := hfits
        exact ⟨path, hpath, .inl hapi⟩
    | setToGraphQl =>
        obtain ⟨path, hpath, -, hgraph⟩ := hfits
        exact ⟨path, hpath, .inr hgraph⟩
    | kept | warnedAbout => exact absurd rfl hnew
  · rw [Assigner.verdict_of_not_isPortLine config hport] at hnew
    exact absurd rfl hnew

/-- What an assigner changes and what it warns about, line by line. A plan keeps its number of lines
and its last line feed. A line changes only if it holds an old port and the first path behind it
belongs to a service. The warnings are about the lines with an old port and no path behind them, in
ascending order. Every line with an old port has exactly one of the four fates. -/
theorem lines_changed_and_warned (config : Config) (source : Text) :
    let out := (Assigner.ofConfig config).apply source
    let ls := lines source
    let w := config.lookahead
    (lines out.content).length = ls.length ∧
      (out.content.getLast? = some '\n' ↔ source.getLast? = some '\n') ∧
      (∀ i line, ls[i]? = some line → (lines out.content)[i]? ≠ some line →
        config.IsPortLine line ∧ ∃ path, FirstPath ls w i path ∧
          ("/api".toList <:+: path ∨ "/graph".toList <:+: path)) ∧
      (∀ x, x ∈ out.warnings ↔ x.window = some w ∧ ∃ i line, x.line = i + 1 ∧
        ls[i]? = some line ∧ config.IsPortLine line ∧ ¬ ∃ path, FirstPath ls w i path) ∧
      (out.warnings.map Warning.line).Pairwise (· < ·) ∧
      ∀ i line, ls[i]? = some line → config.IsPortLine line →
        ∃! fate : Fate, fate.Befalls config source i line := by
  intro out ls w
  let a := Assigner.ofConfig config
  refine ⟨?_, a.getLast?_content_iff source, fun i line => changed_line, fun x => ?_, ?_,
    fun i line => existsUnique_fate⟩
  · rw [show lines out.content = _ from a.lines_content source, Assigner.newLines,
      List.length_mapIdx]
  · have hwarned (n : Nat) : n ∈ a.warnedLines source ↔ ∃ i line, n = i + 1 ∧
        ls[i]? = some line ∧ config.IsPortLine line ∧ ¬ ∃ path, FirstPath ls w i path := by
      simp only [a, Assigner.mem_warnedLines_iff, Assigner.verdict_eq_pathless_iff, ls, w]
    change x ∈ (a.warnedLines source).map (⟨·, some w⟩) ↔ _
    rw [← hwarned, List.mem_map]
    constructor
    · rintro ⟨n, hn, rfl⟩
      exact ⟨rfl, hn⟩
    · rintro ⟨hwindow, hn⟩
      exact ⟨x.line, hn, by rw [← hwindow]⟩
  · have hmap : out.warnings.map Warning.line = a.warnedLines source := by
      simp [out, a, Assigner.apply, Function.comp_def]
    rw [hmap]
    exact a.pairwise_warnedLines source

end SamplerPorts
