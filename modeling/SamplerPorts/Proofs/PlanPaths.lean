import Mathlib.Data.List.Basic
import SamplerPorts.Proofs.Glob.Matching
import SamplerPorts.Proofs.Text.Encoding
import SamplerPorts.Proofs.Walking
import SamplerPorts.Proofs.Plans
import SamplerPorts.Run

/-!
The paths of the test plans that the standard run is for. They lead through `test-plans`, where
this is a directory or leads to one, to the entries that end in `.jmx` and are not hidden. The glob
matches no name alone and nothing else two levels below the current directory
(`isMatch_planGlob_pair_iff`), so these are the targets of the run (`targets_standard`).
-/

namespace SamplerPorts
open Discovery

/-- The name of the directory with the test plans. -/
def plansName : Name := ⟨"test-plans".toList, by decide⟩

/-- The path of a test plan from the current directory. -/
def planPath (name : Name) : Path := ⟨plansName.text ++ '/' :: name.text⟩

/-- The name of a test plan. -/
def Name.IsPlan (name : Name) : Prop := ".jmx".toList <:+ name.text ∧ name.isHidden = false

namespace Disk

/-- The path `test-plans` leads to the directory, which is not the current one. -/
def IsPlanDirectory (d : Disk) (dir : Location) : Prop :=
  (∃ links, d.resolve .read (.ofString "test-plans") = .ok (.entry dir, links)) ∧
    d.isDirectory dir = true ∧ dir ≠ d.current

/-- The path of an entry of the directory with the test plans that has the name of one. What kind
of entry it is does not matter. -/
def IsPlanPath (d : Disk) (p : Path) : Prop :=
  ∃ dir name, d.IsPlanDirectory dir ∧ name ∈ d.children dir ∧ name.IsPlan ∧ p = planPath name

end Disk

theorem relativePath_pair (n k : Name) : relativePath [n, k] = ⟨n.text ++ '/' :: k.text⟩ := by
  simp only [relativePath, Path.ofPieces, List.map_cons, List.map_nil, Text.join,
    List.append_assoc, List.singleton_append]

theorem slash_not_mem_encode (n : Name) : Glob.slash ∉ Text.encode n.text := by
  intro h
  exact n.isProper.2.2.2 ((Text.mem_encode_iff (a := '/') (by decide)).1 h)

/-- The tokens of the glob that names the test plans. -/
def planGlob : List Glob.Token :=
  Glob.Token.literals "test-plans/".toList ++ .star :: Glob.Token.literals ".jmx".toList

theorem readGlob_standard : readGlob Config.standard.pattern = .ok planGlob := rfl

/-- A name alone does not match, as it has no slash. -/
theorem isMatch_planGlob_single (n : Name) :
    Glob.isMatch planGlob (Text.encode (relativePath [n]).text) = false := by
  rw [Bool.eq_false_iff]
  intro h
  obtain ⟨m, -, hm⟩ := (Glob.isMatch_literals_star_iff ..).1 h
  have hslash : Glob.slash ∈ Text.encode "test-plans/".toList := by decide
  apply slash_not_mem_encode n
  rw [show Text.encode n.text = _ from hm]
  exact List.mem_append_left _ (List.mem_append_left _ hslash)

theorem isMatch_planGlob_pair_iff (n k : Name) :
    Glob.isMatch planGlob (Text.encode (relativePath [n, k]).text) = true ↔
      n = plansName ∧ ".jmx".toList <:+ k.text := by
  have hpair : Text.encode (relativePath [n, k]).text =
      Text.encode n.text ++ Glob.slash :: Text.encode k.text := by
    rw [relativePath_pair, Text.encode_append]
    rfl
  have hglob (m : Bytes) : Text.encode "test-plans/".toList ++ m ++ Text.encode ".jmx".toList =
      Text.encode plansName.text ++ Glob.slash :: (m ++ Text.encode ".jmx".toList) := by
    rw [List.append_assoc]
    rfl
  rw [planGlob, Glob.isMatch_literals_star_iff, hpair]
  constructor
  · rintro ⟨m, -, hm⟩
    -- the names have no slash, so the slashes on both sides are the same one
    rw [hglob] at hm
    obtain ⟨hn, -, hk⟩ := (List.append_cons_inj_of_notMem (slash_not_mem_encode n)
      (slash_not_mem_encode k)).1 hm
    obtain ⟨u, hu, -⟩ := Text.eq_append_of_encode (a := '.') (by decide) hk
    exact ⟨Name.eq_of_text (Text.encode_injective hn), u, hu.symm⟩
  · rintro ⟨rfl, u, hu⟩
    refine ⟨Text.encode u, ?_, ?_⟩
    · intro h
      apply slash_not_mem_encode k
      rw [← hu, Text.encode_append]
      exact List.mem_append_left _ h
    · rw [hglob, ← Text.encode_append, hu]

namespace Disk
variable {d : Disk} {dir : Location}

theorem resolve_plansName :
    d.resolve .read (.ofString "test-plans") =
      d.follow .read maxLinks d.current [plansName.text] := rfl

theorem IsPlanDirectory.isDirectory_current (h : d.IsPlanDirectory dir) :
    d.isDirectory d.current = true := by
  obtain ⟨⟨links, h⟩, -⟩ := h
  cases hd : d.isDirectory d.current with
  | true => rfl
  | false =>
      obtain ⟨e, he⟩ := @resolve_of_not_isDirectory d .read (.ofString "test-plans") rfl hd
      rw [he] at h
      cases h

/-- The walk enters the directory with the test plans. -/
theorem isPlanDirectory_iff (hcurrent : d.isDirectory d.current = true) :
    d.IsPlanDirectory dir ↔
      ∃ l, d.enter? maxLinks [d.current] d.current plansName = some (dir, l) := by
  rw [IsPlanDirectory, resolve_plansName]
  constructor
  · rintro ⟨⟨links, h⟩, hdir, hne⟩
    exact ⟨links, (enter?_eq_some_iff hcurrent).2 ⟨h, hdir, .inr (by simpa using hne)⟩⟩
  · rintro ⟨links, h⟩
    obtain ⟨h, hdir, hcase⟩ := (enter?_eq_some_iff hcurrent).1 h
    refine ⟨⟨links, h⟩, hdir, ?_⟩
    obtain hentry | htrail := hcase
    · rw [follow_name hcurrent hentry (by simp)] at h
      cases h
      exact List.cons_ne_self _ _
    · simpa using htrail

/-- What the walk finds and the glob matches. -/
theorem mem_walk_and_isMatch_iff (names : List Name) :
    names ∈ d.walk (.ofString ".") (some 2) ∧
        Glob.isMatch planGlob (Text.encode (relativePath names).text) = true ↔
      ∃ dir name, d.IsPlanDirectory dir ∧ name ∈ d.children dir ∧ name.IsPlan ∧
        names = [plansName, name] := by
  rw [walk_here]
  constructor
  · rintro ⟨hmem, hmatch⟩
    cases hcurrent : d.isDirectory d.current with
    | false => simp [hcurrent] at hmem
    | true =>
        rw [hcurrent, if_pos rfl] at hmem
        change names ∈ d.below 2 maxLinks [d.current] d.current at hmem
        obtain ⟨hpos, hle⟩ := length_of_mem_below hmem
        obtain _ | ⟨n, _ | ⟨k, _ | ⟨name, more⟩⟩⟩ := names
        · exact absurd hpos (by decide)
        · rw [isMatch_planGlob_single] at hmatch
          cases hmatch
        · obtain ⟨rfl, hsuffix⟩ := (isMatch_planGlob_pair_iff n k).1 hmatch
          obtain ⟨-, -, dir, l, henter, hk, hhidden⟩ := pair_mem_below_two_iff.1 hmem
          exact ⟨dir, k, (isPlanDirectory_iff hcurrent).2 ⟨l, henter⟩, hk, ⟨hsuffix, hhidden⟩, rfl⟩
        · simp only [List.length_cons] at hle
          omega
  · rintro ⟨dir, name, hdir, hname, ⟨hsuffix, hhidden⟩, rfl⟩
    have hcurrent := hdir.isDirectory_current
    obtain ⟨l, henter⟩ := (isPlanDirectory_iff hcurrent).1 hdir
    rw [hcurrent, if_pos rfl]
    exact ⟨pair_mem_below_two_iff.2
      ⟨mem_children_of_enter? henter, rfl, dir, l, henter, hname, hhidden⟩,
      (isMatch_planGlob_pair_iff ..).2 ⟨rfl, hsuffix⟩⟩

end Disk

theorem matching_standard (d : Disk) : matching d (.ofString ".") [Config.standard.pattern] =
    .ok ((d.walk (.ofString ".") (some 2)).filter fun names =>
      Glob.isMatch planGlob (Text.encode (relativePath names).text)) := by
  have hdepth : depth? [Config.standard.pattern] = some 2 := by decide
  have hglobs : [Config.standard.pattern].mapM readGlob = .ok [planGlob] := by
    rw [List.mapM_cons, readGlob_standard]
    rfl
  have hany (names : List Name) : ([planGlob].any fun glob =>
      Glob.isMatch glob (Text.encode (relativePath names).text)) =
      Glob.isMatch planGlob (Text.encode (relativePath names).text) := Bool.or_false _
  rw [matching, hdepth, hglobs]
  change Except.ok _ = Except.ok _
  simp only [hany]

theorem find_standard (d : Disk) : find d (.ofString ".") [Config.standard.pattern] =
    .ok (((d.walk (.ofString ".") (some 2)).filter fun names =>
      Glob.isMatch planGlob (Text.encode (relativePath names).text)).map fun names =>
        (Path.ofString ".").join (relativePath names)) := by
  rw [find, matching_standard]
  rfl

/-- The targets of the standard run are the paths of the test plans, seen from the current
directory. -/
theorem targets_standard (d : Disk) :
    ∃ ps, (Run.standard (.ofString ".")).targets d = .ok ps ∧
      ∀ p, p ∈ ps ↔ ∃ q, d.IsPlanPath q ∧ p = (Path.ofString ".").join q := by
  refine ⟨_, find_standard d, ?_⟩
  intro p
  rw [List.mem_map]
  constructor
  · rintro ⟨names, hnames, rfl⟩
    rw [List.mem_filter, Disk.mem_walk_and_isMatch_iff] at hnames
    obtain ⟨dir, name, hdir, hname, hplan, rfl⟩ := hnames
    exact ⟨planPath name, ⟨dir, name, hdir, hname, hplan, rfl⟩, by rw [relativePath_pair, planPath]⟩
  · rintro ⟨q, ⟨dir, name, hdir, hname, hplan, rfl⟩, rfl⟩
    refine ⟨[plansName, name], ?_, by rw [relativePath_pair, planPath]⟩
    rw [List.mem_filter, Disk.mem_walk_and_isMatch_iff]
    exact ⟨dir, name, hdir, hname, hplan, rfl⟩

/-- A test plan is where its path leads from the current directory. -/
theorem Disk.holds_join_here_iff {d : Disk} {p : Path} (hp : d.IsPlanPath p) {loc : Location}
    {t : Text} : d.Holds ((Path.ofString ".").join p) loc t ↔ d.Holds p loc t := by
  obtain ⟨dir, name, -, -, -, rfl⟩ := hp
  rw [Holds, resolve_join_here (by simp [planPath]) rfl, Holds]

end SamplerPorts
