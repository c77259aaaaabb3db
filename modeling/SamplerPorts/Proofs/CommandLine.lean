import SamplerPorts.CommandLine
import SamplerPorts.Proofs.Assigning
import SamplerPorts.Proofs.PlanPaths
import SamplerPorts.Proofs.RelativePaths

/-!
The contract of the command line tool (`run_contract`). The tool ends well if every path of a test
plan leads to a file with a text. Then all of these files are set, each once, and the overview of
the ports comes last. Otherwise some of them may be set, and the overview is not in the output: it
has a slash behind a bracket, but the output of a run has slashes behind `test-plans` only
(`slashesFollow_report`).
-/

namespace SamplerPorts

/-- In the text, slashes come right behind one character only. -/
def Text.SlashesFollow (c : Char) (t : Text) : Prop :=
  ∀ u v, t = u ++ '/' :: v → u.getLast? = some c

namespace Text
variable {c : Char} {t : Text}

theorem slashesFollow_of_not_mem (h : '/' ∉ t) : t.SlashesFollow c := by
  rintro u v rfl
  simp at h

theorem SlashesFollow.append {u : Text} (ht : t.SlashesFollow c) (hu : u.SlashesFollow c) :
    (t ++ u).SlashesFollow c := by
  intro v w h
  obtain ⟨x, rfl, hux⟩ | ⟨x, rfl, hux⟩ := List.append_eq_append_iff.1 h
  · rw [List.getLast?_append, hu x w hux]
    rfl
  · cases x with
    | nil => cases hu [] w hux.symm
    | cons d x =>
        obtain ⟨rfl, -⟩ := List.cons.inj hux
        exact ht v x rfl

theorem SlashesFollow.flatMap {α : Type} {f : α → Text} {xs : List α}
    (h : ∀ x ∈ xs, (f x).SlashesFollow c) : SlashesFollow c (xs.flatMap f) := by
  induction xs with
  | nil => exact slashesFollow_of_not_mem List.not_mem_nil
  | cons x xs ih =>
      rw [List.flatMap_cons]
      exact (h x (by simp)).append (ih fun y hy => h y (by simp [hy]))

theorem SlashesFollow.eq_of_pair {d : Char} (h : t.SlashesFollow c) (hpair : [d, '/'] <:+: t) :
    d = c := by
  obtain ⟨u, v, rfl⟩ := hpair
  have hlast := h (u ++ [d]) v (by simp)
  rwa [List.getLast?_concat, Option.some.injEq] at hlast

end Text

theorem Text.slash_not_mem_ofNat (n : Nat) : '/' ∉ Text.ofNat n := by
  intro h
  have hdigit := Nat.isDigit_of_mem_toDigits (b := 10) (by decide) (by decide) h
  cases hdigit

theorem Warning.slash_not_mem_message (w : Warning) : '/' ∉ w.message := by
  have hfound : '/' ∉ "Found port at line ".toList := by decide
  have hwithin : '/' ∉ " but no path within next ".toList := by decide
  have hlines : '/' ∉ " lines".toList := by decide
  have hpath : '/' ∉ " but no path for it".toList := by decide
  obtain ⟨line, _ | window⟩ := w
  · exact List.not_mem_append (List.not_mem_append hfound (Text.slash_not_mem_ofNat _)) hpath
  · exact List.not_mem_append (List.not_mem_append hfound (Text.slash_not_mem_ofNat _))
      (List.not_mem_append (List.not_mem_append hwithin (Text.slash_not_mem_ofNat _)) hlines)

theorem Warning.slash_not_mem_lines (ws : List Warning) : '/' ∉ Warning.lines ws := by
  have hwarning : '/' ∉ "Warning: ".toList := by decide
  intro h
  obtain ⟨w, -, hw⟩ := List.mem_flatMap.1 h
  exact List.not_mem_append (List.not_mem_append hwarning w.slash_not_mem_message) (by decide) hw

/-- In messages a test plan has its path from the current directory. -/
theorem shownFrom_join_planPath (name : Name) :
    ((Path.ofString ".").join (planPath name)).shownFrom (.ofString ".") = planPath name := by
  have hnames : planPath name = Discovery.relativePath [plansName, name] :=
    (relativePath_pair plansName name).symm
  rw [hnames]
  exact Discovery.shownFrom_join_relativePath (by simp) (by decide)

namespace CommandLine

/-- The run of the tool. -/
abbrev toolRun : Run := .standard (.ofString ".")

section
variable {d : Disk}

theorem toolRun_outlook (d : Disk) :
    ∃ ps, toolRun.outlook d = d.survey ps ∧
      ∀ p, p ∈ ps ↔ ∃ q, d.IsPlanPath q ∧ p = (Path.ofString ".").join q := by
  obtain ⟨ps, hps, hmem⟩ := targets_standard d
  refine ⟨ps, ?_, hmem⟩
  rw [Run.outlook, hps]

theorem outlook_eq_none_iff :
    (toolRun.outlook d).2 = none ↔ ∀ p, d.IsPlanPath p → ∃ loc t, d.Holds p loc t := by
  obtain ⟨ps, hps, hmem⟩ := toolRun_outlook d
  rw [hps, Disk.survey_eq_none_iff]
  constructor
  · intro h p hp
    obtain ⟨loc, t, ht⟩ := Disk.exists_plan?_iff.1 (h _ ((hmem _).2 ⟨p, hp, rfl⟩))
    exact ⟨loc, t, (Disk.holds_join_here_iff hp).1 ht⟩
  · intro h p hp
    obtain ⟨q, hq, rfl⟩ := (hmem p).1 hp
    obtain ⟨loc, t, ht⟩ := h q hq
    exact Disk.exists_plan?_iff.2 ⟨loc, t, (Disk.holds_join_here_iff hq).2 ht⟩

theorem holds_of_mem_outlook {q : Plan} (h : q ∈ (toolRun.outlook d).1) :
    ∃ p, d.IsPlanPath p ∧ q.path = (Path.ofString ".").join p ∧ d.Holds p q.loc q.text := by
  obtain ⟨ps, hps, hmem⟩ := toolRun_outlook d
  rw [hps] at h
  obtain ⟨hpath, hplan⟩ := Disk.plan?_of_mem_survey h
  obtain ⟨p, hp, hjoin⟩ := (hmem _).1 hpath
  obtain ⟨-, ht⟩ := Disk.plan?_eq_ok_iff.1 hplan
  rw [hjoin] at ht
  exact ⟨p, hp, hjoin, (Disk.holds_join_here_iff hp).1 ht⟩

theorem mem_outlook_of_holds (h : (toolRun.outlook d).2 = none) {p : Path} (hp : d.IsPlanPath p)
    {loc : Location} {t : Text} (ht : d.Holds p loc t) :
    loc ∈ (toolRun.outlook d).1.map Plan.loc := by
  obtain ⟨ps, hps, hmem⟩ := toolRun_outlook d
  rw [hps] at h ⊢
  have hplan : d.plan? ((Path.ofString ".").join p) = .ok ⟨(Path.ofString ".").join p, loc, t⟩ :=
    Disk.plan?_eq_ok_iff.2 ⟨rfl, (Disk.holds_join_here_iff hp).2 ht⟩
  have hsurvey := Disk.mem_survey_of_plan? h ((hmem _).2 ⟨p, hp, rfl⟩) hplan
  exact List.mem_map.2 ⟨_, hsurvey, rfl⟩

end

theorem slashesFollow_planPath (name : Name) : (planPath name).text.SlashesFollow 's' := by
  intro u v h
  obtain ⟨rfl, -⟩ := (List.append_cons_inj_of_notMem plansName.isProper.2.2.2
    name.isProper.2.2.2).1 h
  rfl

theorem slashesFollow_report (d : Disk) :
    (toolRun.report (toolRun.outlook d).1).SlashesFollow 's' := by
  have hupdated : '/' ∉ "✓ Updated ".toList := by decide
  apply Text.SlashesFollow.flatMap
  intro q hq
  obtain ⟨p, ⟨dir, name, -, -, -, rfl⟩, hname, -⟩ := holds_of_mem_outlook hq
  refine (Text.slashesFollow_of_not_mem (Warning.slash_not_mem_lines _)).append ?_
  refine ((Text.slashesFollow_of_not_mem hupdated).append ?_).append
    (Text.slashesFollow_of_not_mem (by decide))
  change (q.path.shownFrom (.ofString ".")).text.SlashesFollow 's'
  rw [hname, shownFrom_join_planPath]
  exact slashesFollow_planPath name

/-- The overview of the ports is not in what the run says. -/
theorem success_not_infix_report (d : Disk) :
    ¬ Text.encode (success .standard) <:+:
      Text.encode (toolRun.report (toolRun.outlook d).1) := by
  have hsuccess : ['(', '/'] <:+: success .standard := Text.has_iff.1 (by decide +kernel)
  have hascii : Text.IsAscii ['(', '/'] := by simp [Text.IsAscii]
  intro hinfix
  have hslash := ((Text.encode_infix_iff hascii).2 hsuccess).trans hinfix
  have hsame := (slashesFollow_report d).eq_of_pair ((Text.encode_infix_iff hascii).1 hslash)
  exact absurd hsame (by decide)

section
variable (i : Invocation) (d : Disk)

/-- The tool does what the outlook of its run says. -/
theorem run_eq :
    let o := toolRun.outlook d
    (run i d).disk = d.assign toolRun.assigner (o.1.map Plan.loc) ∧
      (o.2 = none ∧ (run i d).status = 0 ∧
          (run i d).output = Text.encode (toolRun.report o.1) ++ Text.encode (success .standard) ∨
        o.2 ≠ none ∧ (run i d).status = 1 ∧
          (run i d).output = Text.encode (toolRun.report o.1)) := by
  intro o
  let before : List Log.Event :=
    if (ignored i.arguments).isEmpty then [] else [.argumentsIgnored (ignored i.arguments)]
  obtain ⟨log, h⟩ := @Run.perform_eq toolRun rfl ((Session.start d .unlimited).logged before) rfl
  have h : toolRun.perform ((Session.start d .unlimited).logged before) =
      (⟨d.assign toolRun.assigner (o.1.map Plan.loc), Sink.unlimited.add (toolRun.report o.1), log⟩,
        toolRun.answer o) := h
  rw [run, h, Run.answer]
  cases ho : o.2 with
  | none => exact ⟨rfl, .inl ⟨rfl, rfl, rfl⟩⟩
  | some e => exact ⟨rfl, .inr ⟨by simp, rfl, rfl⟩⟩

theorem status_eq_zero_iff : (run i d).status = 0 ↔ (toolRun.outlook d).2 = none := by
  obtain ⟨-, ⟨hnone, hstatus, -⟩ | ⟨hsome, hstatus, -⟩⟩ := run_eq i d
  · simp [hnone, hstatus]
  · simp [hsome, hstatus]

theorem success_suffix_output (h : (run i d).status = 0) :
    Text.encode (success .standard) <:+ (run i d).output := by
  obtain ⟨-, ⟨-, -, houtput⟩ | ⟨-, hstatus, -⟩⟩ := run_eq i d
  · rw [houtput]
    exact List.suffix_append ..
  · rw [hstatus] at h
    cases h

theorem success_not_infix_output (h : (run i d).status ≠ 0) :
    ¬ Text.encode (success .standard) <:+: (run i d).output := by
  obtain ⟨-, ⟨-, hstatus, -⟩ | ⟨-, -, houtput⟩⟩ := run_eq i d
  · exact absurd hstatus h
  · rw [houtput]
    exact success_not_infix_report d

/-- Nothing is added, removed or moved. -/
theorem locations_run : (run i d).disk.entries.map Prod.fst = d.entries.map Prod.fst := by
  rw [(run_eq i d).1]
  exact d.map_fst_mapFiles _

variable {d} in
theorem find?_run_of_holds (h : (run i d).status = 0) {p : Path} {loc : Location} {t : Text}
    (hp : d.IsPlanPath p) (ht : d.Holds p loc t) :
    (run i d).disk.find? loc = some (.file (Text.encode (toolRun.assigner.apply t).content)) := by
  have hnone := (status_eq_zero_iff i d).1 h
  rw [(run_eq i d).1]
  exact Disk.find?_assign_of_holds toolRun.assigner (mem_outlook_of_holds hnone hp ht) ht

/-- However the run ends, an entry is left alone unless it is the file of a test plan. -/
theorem find?_run (loc : Location) :
    (run i d).disk.find? loc = d.find? loc ∨ ∃ p t, d.IsPlanPath p ∧ d.Holds p loc t ∧
      (run i d).disk.find? loc =
        some (.file (Text.encode (toolRun.assigner.apply t).content)) := by
  rw [(run_eq i d).1]
  by_cases hloc : loc ∈ (toolRun.outlook d).1.map Plan.loc
  · obtain ⟨q, hq, rfl⟩ := List.mem_map.1 hloc
    obtain ⟨p, hp, -, ht⟩ := holds_of_mem_outlook hq
    exact .inr ⟨p, q.text, hp, ht, Disk.find?_assign_of_holds toolRun.assigner hloc ht⟩
  · exact .inl (Disk.find?_assign_of_not_mem d toolRun.assigner hloc)

end

/-- What the tool does to any disk, with any arguments. Its status is zero exactly if all paths of
test plans lead to files with texts, and then each of these files is set, nothing else changes and
the overview comes last. Otherwise the overview does not come, and a file is either left alone or
one of these and set. -/
theorem run_contract (i : Invocation) (d : Disk) :
    let a := Assigner.ofConfig .standard
    let out := run i d
    (out.status = 0 ↔ ∀ p, d.IsPlanPath p → ∃ loc t, d.Holds p loc t) ∧
      (out.disk.current = d.current ∧
        out.disk.entries.map Prod.fst = d.entries.map Prod.fst) ∧
      (out.status = 0 →
        Text.encode (success .standard) <:+ out.output ∧
          (∀ p loc t, d.IsPlanPath p → d.Holds p loc t →
            out.disk.find? loc = some (.file (Text.encode (a.apply t).content))) ∧
          ∀ loc, (∀ p t, d.IsPlanPath p → ¬ d.Holds p loc t) →
            out.disk.find? loc = d.find? loc) ∧
      (out.status ≠ 0 →
        ¬ Text.encode (success .standard) <:+: out.output ∧
          ∀ loc, out.disk.find? loc = d.find? loc ∨
            ∃ p t, d.IsPlanPath p ∧ d.Holds p loc t ∧
              out.disk.find? loc = some (.file (Text.encode (a.apply t).content))) := by
  intro a out
  refine ⟨(status_eq_zero_iff i d).trans outlook_eq_none_iff, ⟨?_, locations_run i d⟩, ?_, ?_⟩
  · rw [show out.disk = _ from (run_eq i d).1]
    rfl
  · intro h
    refine ⟨success_suffix_output i d h, ?_, ?_⟩
    · intro p loc t hp ht
      exact find?_run_of_holds i h hp ht
    · intro loc hloc
      obtain hsame | ⟨p, t, hp, ht, -⟩ := find?_run i d loc
      · exact hsame
      · exact absurd ht (hloc p t hp)
  · intro h
    exact ⟨success_not_infix_output i d h, find?_run i d⟩

end CommandLine
end SamplerPorts
