import SamplerPorts.Proofs.LineFates

/-!
How far a plan is read for a path. A verdict depends on the line and on the lines ahead of it in the
window alone, and once a path is found the lines behind it make no difference
(`verdict_of_more_ahead`). So of two plans that are joined the second one is set as if it stood
alone, and the first one too if none of its ports is still without a path where it ends
(`joined_plans_set_apart`). A wider window settles more ports, and changes nothing about those that
were settled before (`wider_window`).
-/

namespace SamplerPorts
open Text

/-- The lines ahead of line `i` as far as a window of `w` lines goes. -/
def ahead (ls : List Text) (w i : Nat) : List Text := (ls.drop (i + 1)).take w

section
variable {ls ms xs ys : List Text} {w w' i j : Nat} {path : Text}

theorem ahead_append_left (h : i < xs.length) : ahead xs w i <+: ahead (xs ++ ys) w i := by
  rw [ahead, ahead, List.drop_append_of_le_length h, List.take_append]
  exact List.prefix_append ..

/-- A window that ends in the first lines does not show what is joined to them. -/
theorem ahead_append_of_lt (h : i + w < xs.length) : ahead (xs ++ ys) w i = ahead xs w i := by
  rw [ahead, ahead, List.drop_append_of_le_length (by omega), List.take_append_of_le_length]
  rw [List.length_drop]
  omega

theorem ahead_append_right (xs ys : List Text) (w i : Nat) :
    ahead (xs ++ ys) w (i + xs.length) = ahead ys w i := by
  rw [ahead, ahead, Nat.add_right_comm, Nat.add_comm, List.drop_length_add_append]

theorem ahead_mono (ls : List Text) (h : w ≤ w') (i : Nat) : ahead ls w i <+: ahead ls w' i :=
  List.take_prefix_take_left h

theorem ahead_of_length_le (h : ls.length ≤ w) (i : Nat) : ahead ls w i = ls.drop (i + 1) := by
  rw [ahead, List.take_of_length_le]
  rw [List.length_drop]
  omega

theorem FirstPath.of_more_ahead (h : FirstPath ls w i path)
    (hahead : ahead ls w i <+: ahead ms w' j) : FirstPath ms w' j path :=
  find?_window_eq_some_iff.1 (hahead.find?_eq_some (find?_window_eq_some_iff.2 h))

end

/-- The configuration with a window of `w` lines. -/
def Config.withWindow (config : Config) (w : Nat) : Config := { config with lookahead := w }

namespace Assigner
variable (config : Config) {ls ms : List Text} {w w' i j : Nat} {line : Text}

/-- More lines ahead do not change a verdict that has its path. -/
theorem verdict_of_more_ahead (hahead : ahead ls w i <+: ahead ms w' j)
    (h : (ofConfig (config.withWindow w)).verdict ls i line ≠ .pathless) :
    (ofConfig (config.withWindow w')).verdict ms j line =
      (ofConfig (config.withWindow w)).verdict ls i line := by
  by_cases hport : config.IsPortLine line
  · obtain ⟨path, hpath⟩ : ∃ path, FirstPath ls w i path :=
      Classical.byContradiction fun hnone =>
        h (verdict_of_no_path (config.withWindow w) hport hnone)
    rw [verdict_of_firstPath (config.withWindow w) hport hpath,
      verdict_of_firstPath (config.withWindow w') hport (hpath.of_more_ahead hahead)]
    rfl
  · rw [verdict_of_not_isPortLine (config.withWindow w) hport,
      verdict_of_not_isPortLine (config.withWindow w') hport]

theorem verdict_of_ahead_eq (hahead : ahead ls w i = ahead ms w' j) :
    (ofConfig (config.withWindow w)).verdict ls i line =
      (ofConfig (config.withWindow w')).verdict ms j line := by
  have hclassify : (Classifier.lookahead w).classify ls i =
      (Classifier.lookahead w').classify ms j :=
    congrArg (fun ls => (ls.find? (has Endpoint.pathKey)).map Endpoint.ofPathLine) hahead
  simp only [verdict, ofConfig, Config.withWindow, hclassify]
  rfl

end Assigner

/-! ### Joined plans -/

namespace Text

theorem lines_append_feed (t u : Text) : lines (t ++ '\n' :: u) = lines t ++ lines u :=
  pieces_append_sep '\n' t u

theorem eq_of_lines_eq {t u : Text} (h : lines t = lines u) : t = u := by
  rw [← unlines_lines t, h, unlines_lines]

end Text

/-- Every port line has a path in its window or all lines of its window, so it does not matter what
follows the lines. -/
def Config.IsClosed (config : Config) (ls : List Text) : Prop :=
  ∀ i line, ls[i]? = some line → config.IsPortLine line →
    (∃ j path, i < j ∧ j ≤ i + config.lookahead ∧ ls[j]? = some path ∧
      Endpoint.pathKey <:+: path) ∨
    i + config.lookahead < ls.length

/-- The warning with its line `n` lines further down. -/
def Warning.shift (n : Nat) (x : Warning) : Warning := { x with line := x.line + n }

theorem exists_firstPath {ls : List Text} {w i j : Nat} {path : Text} (hij : i < j) (hjw : j ≤ i + w)
    (hline : ls[j]? = some path) (hpath : Endpoint.pathKey <:+: path) :
    ∃ path, FirstPath ls w i path := by
  have hmem : path ∈ ahead ls w i := by
    refine List.mem_of_getElem? (i := j - (i + 1)) ?_
    rw [ahead, List.getElem?_take_of_lt (by omega), List.getElem?_drop]
    rwa [show i + 1 + (j - (i + 1)) = j by omega]
  have hfound : ((ahead ls w i).find? (has Endpoint.pathKey)).isSome :=
    List.find?_isSome.2 ⟨path, hmem, has_iff.2 hpath⟩
  obtain ⟨first, hfirst⟩ := Option.isSome_iff_exists.1 hfound
  exact ⟨first, find?_window_eq_some_iff.1 hfirst⟩

namespace Verdict

/-- The lines warned about, counted from one, if these are the verdicts on the lines. -/
def warned (vs : List Verdict) : List Nat :=
  vs.zipIdx.filterMap fun (v, i) => if v = .pathless then some (i + 1) else none

theorem warned_append (vs us : List Verdict) :
    warned (vs ++ us) = warned vs ++ (warned us).map (· + vs.length) := by
  have hindex : us.zipIdx vs.length = us.zipIdx.map fun (v, i) => (v, vs.length + i) :=
    List.zipIdx_eq_map_add
  rw [warned, List.zipIdx_append, List.filterMap_append, Nat.zero_add, hindex, List.filterMap_map,
    warned, warned, List.map_filterMap]
  congr 2
  funext ⟨v, i⟩
  by_cases hv : v = .pathless
  · simp [hv]
    omega
  · simp [hv]

theorem bounds_of_mem_warned {vs : List Verdict} {n : Nat} (h : n ∈ warned vs) :
    0 < n ∧ n ≤ vs.length := by
  obtain ⟨⟨v, i⟩, hmem, hn⟩ := List.mem_filterMap.1 h
  have hi := (List.mem_zipIdx hmem).2.1
  rw [Option.ite_none_right_eq_some] at hn
  have := Option.some.inj hn.2
  omega

end Verdict

namespace Assigner
variable (config : Config)

theorem verdict_append_right (xs ys : List Text) (i : Nat) (line : Text) :
    (ofConfig config).verdict (xs ++ ys) (i + xs.length) line = (ofConfig config).verdict ys i line :=
  verdict_of_ahead_eq config (ahead_append_right xs ys config.lookahead i)

theorem verdict_append_left {xs : List Text} (hclosed : config.IsClosed xs) (ys : List Text) {i : Nat}
    {line : Text} (hline : xs[i]? = some line) :
    (ofConfig config).verdict (xs ++ ys) i line = (ofConfig config).verdict xs i line := by
  by_cases hport : config.IsPortLine line
  · obtain ⟨j, path, hij, hjw, hj, hpath⟩ | hlt := hclosed i line hline hport
    · have hfirst := exists_firstPath hij hjw hj hpath
      refine verdict_of_more_ahead config (ahead_append_left (List.getElem?_eq_some_iff.1 hline).1) ?_
      exact fun h => ((verdict_eq_pathless_iff config).1 h).2 hfirst
    · exact verdict_of_ahead_eq config (ahead_append_of_lt hlt)
  · rw [verdict_of_not_isPortLine config hport, verdict_of_not_isPortLine config hport]

theorem newLines_eq_zipWith (a : Assigner) (source : Text) :
    a.newLines (lines source) = List.zipWith Verdict.newLine (a.verdicts source) (lines source) := by
  apply List.ext_getElem
  · simp [newLines, verdicts]
  · intro i _ _
    simp [newLines, verdicts]

/-- The verdicts on the lines of the first of two plans that are joined. -/
def frontVerdicts (front back : Text) : List Verdict :=
  (lines front).mapIdx ((ofConfig config).verdict (lines front ++ lines back))

theorem length_frontVerdicts (front back : Text) :
    (frontVerdicts config front back).length = (lines front).length := List.length_mapIdx

theorem verdicts_join (front back : Text) :
    (ofConfig config).verdicts (front ++ '\n' :: back) =
      frontVerdicts config front back ++ (ofConfig config).verdicts back := by
  rw [verdicts, lines_append_feed, List.mapIdx_append]
  simp only [verdict_append_right]
  rfl

theorem frontVerdicts_of_isClosed {front : Text} (h : config.IsClosed (lines front)) (back : Text) :
    frontVerdicts config front back = (ofConfig config).verdicts front :=
  List.mapIdx_eq_mapIdx_iff.2 fun _ hi =>
    verdict_append_left config h (lines back) (List.getElem?_eq_getElem hi)

theorem lines_content_join (front back : Text) :
    lines ((ofConfig config).apply (front ++ '\n' :: back)).content =
      List.zipWith Verdict.newLine (frontVerdicts config front back) (lines front) ++
        lines ((ofConfig config).apply back).content := by
  rw [lines_content, lines_content, newLines_eq_zipWith, newLines_eq_zipWith, verdicts_join,
    lines_append_feed, List.zipWith_append (length_frontVerdicts config front back)]

theorem warnings_join (front back : Text) :
    ((ofConfig config).apply (front ++ '\n' :: back)).warnings =
      (Verdict.warned (frontVerdicts config front back)).map (⟨·, some config.lookahead⟩) ++
        ((ofConfig config).apply back).warnings.map (·.shift (lines front).length) := by
  have hwarned : (ofConfig config).warnedLines (front ++ '\n' :: back) =
      Verdict.warned (frontVerdicts config front back) ++
        ((ofConfig config).warnedLines back).map (· + (lines front).length) := by
    rw [warnedLines, verdicts_join, ← length_frontVerdicts config front back]
    exact Verdict.warned_append ..
  simp only [apply, hwarned, List.map_append, List.map_map]
  rfl

end Assigner

/-- Two plans that are joined with a line feed. The second one gets the lines and the warnings that
it gets alone, further down. So does the first one if each of its port lines has a path, or all
lines of its window, in it. -/
theorem joined_plans_set_apart (config : Config) (front back : Text) :
    let a := Assigner.ofConfig config
    let n := (lines front).length
    let out := a.apply (front ++ '\n' :: back)
    (lines out.content).drop n = lines (a.apply back).content ∧
      out.warnings.filter (n < ·.line) = (a.apply back).warnings.map (·.shift n) ∧
      (config.IsClosed (lines front) →
        out.content = (a.apply front).content ++ '\n' :: (a.apply back).content ∧
          out.warnings = (a.apply front).warnings ++ (a.apply back).warnings.map (·.shift n)) := by
  intro a n out
  refine ⟨?_, ?_, fun hclosed => ⟨?_, ?_⟩⟩
  · rw [Assigner.lines_content_join, List.drop_left']
    simp [Assigner.length_frontVerdicts, n]
  · have hfront : ∀ k ∈ Verdict.warned (Assigner.frontVerdicts config front back), ¬ n < k := by
      intro k hk
      have := (Verdict.bounds_of_mem_warned hk).2
      rw [Assigner.length_frontVerdicts] at this
      omega
    have hback : ∀ x ∈ (a.apply back).warnings.map (·.shift n), n < x.line := by
      intro x hx
      obtain ⟨y, hy, rfl⟩ := List.mem_map.1 hx
      obtain ⟨k, hk, rfl⟩ := List.mem_map.1 hy
      have := (Verdict.bounds_of_mem_warned hk).1
      change n < k + n
      omega
    rw [Assigner.warnings_join, List.filter_append, List.filter_eq_nil_iff.2,
      List.filter_eq_self.2, List.nil_append]
    · simpa using hback
    · simpa using hfront
  · apply eq_of_lines_eq
    rw [Assigner.lines_content_join, Assigner.frontVerdicts_of_isClosed config hclosed,
      ← Assigner.newLines_eq_zipWith, ← Assigner.lines_content, lines_append_feed]
  · rw [Assigner.warnings_join, Assigner.frontVerdicts_of_isClosed config hclosed]
    rfl

/-- A plan that ends with the path of its only port is set as it would be alone. -/
theorem closed_plan_set_apart :
    let front := "HTTPSampler.port\">3033\nHTTPSampler.path\">/graph".toList
    let back := "HTTPSampler.port\">3033\nHTTPSampler.path\">/api".toList
    Config.standard.IsClosed (lines front) ∧
      ((Assigner.ofConfig .standard).apply (front ++ '\n' :: back)).content =
        "HTTPSampler.port\">3035\nHTTPSampler.path\">/graph\n".toList ++
          "HTTPSampler.port\">3034\nHTTPSampler.path\">/api".toList := by
  intro front back
  have hlines : lines front =
      ["HTTPSampler.port\">3033".toList, "HTTPSampler.path\">/graph".toList] := by decide +kernel
  have hclosed : Config.standard.IsClosed (lines front) := by
    rw [hlines]
    intro i line hline hport
    obtain _ | _ | i := i
    · exact .inl ⟨1, _, by decide, by decide, rfl, has_iff.1 (by decide +kernel)⟩
    · obtain rfl := Option.some.inj hline
      exact absurd ((Assigner.handles_iff _).2 hport) (by decide +kernel)
    · cases hline
  refine ⟨hclosed, ?_⟩
  rw [((joined_plans_set_apart .standard front back).2.2 hclosed).1]
  decide +kernel

/-! ### Wider windows -/

namespace Assigner
variable (config : Config) (source : Text)

/-- A wider window leaves a verdict as it is, or there was no path before. -/
theorem verdict_withWindow {w w' : Nat} (h : w ≤ w') (ls : List Text) (i : Nat) (line : Text) :
    (ofConfig (config.withWindow w)).verdict ls i line = .pathless ∨
      (ofConfig (config.withWindow w')).verdict ls i line =
        (ofConfig (config.withWindow w)).verdict ls i line :=
  Decidable.or_iff_not_imp_left.2 (verdict_of_more_ahead config (ahead_mono ls h i))

theorem warnedLines_withWindow_subset {w w' : Nat} (h : w ≤ w') :
    (ofConfig (config.withWindow w')).warnedLines source ⊆
      (ofConfig (config.withWindow w)).warnedLines source := by
  intro n hn
  obtain ⟨i, line, rfl, hline, hpathless⟩ := (mem_warnedLines_iff _).1 hn
  refine (mem_warnedLines_iff _).2 ⟨i, line, rfl, hline, ?_⟩
  obtain hsame | hsame := verdict_withWindow config h (lines source) i line
  · exact hsame
  · exact hsame.symm.trans hpathless

/-- A line that a wider window sets in another way was without a path before, and has one now. -/
theorem warned_of_getElem?_ne {w w' : Nat} (h : w ≤ w') {i : Nat}
    (hne : (lines ((ofConfig (config.withWindow w)).apply source).content)[i]? ≠
      (lines ((ofConfig (config.withWindow w')).apply source).content)[i]?) :
    i + 1 ∈ (ofConfig (config.withWindow w)).warnedLines source ∧
      i + 1 ∉ (ofConfig (config.withWindow w')).warnedLines source := by
  rw [getElem?_lines_content, getElem?_lines_content] at hne
  cases hline : (lines source)[i]? with
  | none => simp [hline] at hne
  | some line =>
      simp only [hline, Option.map_some, ne_eq, Option.some.injEq] at hne
      rw [succ_mem_warnedLines_iff _ hline, succ_mem_warnedLines_iff _ hline]
      obtain hpathless | hsame := verdict_withWindow config h (lines source) i line
      · refine ⟨hpathless, fun hpathless' => hne ?_⟩
        rw [hpathless, hpathless']
      · exact absurd (by rw [hsame]) hne

theorem verdicts_withWindow {w w' : Nat} (h : (lines source).length ≤ w)
    (h' : (lines source).length ≤ w') :
    (ofConfig (config.withWindow w)).verdicts source =
      (ofConfig (config.withWindow w')).verdicts source := by
  refine List.mapIdx_eq_mapIdx_iff.2 fun i _ => verdict_of_ahead_eq config ?_
  rw [ahead_of_length_le h, ahead_of_length_le h']

end Assigner

/-- A wider window only settles more ports. The lines warned about are among those warned about
before, and a line that becomes another one was warned about and is not any more. Windows that are
as wide as the plan is long make no difference. -/
theorem wider_window (config : Config) (source : Text) :
    let out (w : Nat) := (Assigner.ofConfig (config.withWindow w)).apply source
    let warned (w : Nat) := (out w).warnings.map Warning.line
    (∀ w w', w ≤ w' → warned w' ⊆ warned w ∧
      ∀ i, (lines (out w).content)[i]? ≠ (lines (out w').content)[i]? →
        i + 1 ∈ warned w ∧ i + 1 ∉ warned w') ∧
      ∀ w w', (lines source).length ≤ w → (lines source).length ≤ w' →
        (out w).content = (out w').content ∧ warned w = warned w' := by
  intro out warned
  simp only [warned, out, Assigner.map_line_warnings]
  refine ⟨fun w w' h => ⟨Assigner.warnedLines_withWindow_subset config source h, fun i =>
    Assigner.warned_of_getElem?_ne config source h⟩, fun w w' h h' => ⟨?_, ?_⟩⟩
  · apply eq_of_lines_eq
    rw [Assigner.lines_content, Assigner.lines_content, Assigner.newLines_eq_zipWith,
      Assigner.newLines_eq_zipWith, Assigner.verdicts_withWindow config source h h']
  · rw [Assigner.warnedLines, Assigner.verdicts_withWindow config source h h', Assigner.warnedLines]

/-- A line between a port and its path is too much for a window of one line. -/
theorem window_of_two_settles :
    let source := "HTTPSampler.port\">3033\n\nHTTPSampler.path\">/api".toList
    let out (w : Nat) := (Assigner.ofConfig (Config.standard.withWindow w)).apply source
    1 ∈ (out 1).warnings.map Warning.line ∧ 1 ∉ (out 2).warnings.map Warning.line := by
  intro source out
  have hne : (lines (out 1).content)[0]? ≠ (lines (out 2).content)[0]? := by decide +kernel
  exact ((wider_window .standard source).1 1 2 (by decide)).2 0 hne

end SamplerPorts
