import SamplerPorts.Proofs.Entering
import SamplerPorts.Proofs.Reassignment

/-!
What is found below a root: the paths to what the walk finds, as far as a pattern matches them
(`find_exact`). The path along some names is the root's path with these names behind it, so
different names have different paths (`eq_of_join_relativePath`), and it leads to where the walk
comes along the names (`leadsTo_iff_resolve`).
-/

namespace SamplerPorts
open Discovery

namespace Discovery

theorem pieces_relativePath {names : List Name} (hne : names ≠ []) :
    (relativePath names).pieces = names.map Name.text := by
  refine Text.pieces_join (by simpa using hne) fun t ht => ?_
  obtain ⟨name, -, rfl⟩ := List.mem_map.1 ht
  exact name.isProper.2.2.2

theorem not_isAbsolute_relativePath {names : List Name} (hne : names ≠ []) :
    (relativePath names).isAbsolute = false := by
  have hpieces := pieces_relativePath hne
  rw [Path.pieces] at hpieces
  rw [Path.isAbsolute, beq_eq_false_iff_ne, Ne, List.head?_eq_some_iff]
  rintro ⟨rest, hslash⟩
  obtain ⟨name, more, rfl⟩ := List.exists_cons_of_ne_nil hne
  rw [hslash] at hpieces
  exact name.isProper.1 (List.cons.inj hpieces).1.symm

theorem eq_of_relativePath {names names' : List Name} (hne : names ≠ []) (hne' : names' ≠ [])
    (h : (relativePath names).text = (relativePath names').text) : names = names' := by
  have hpieces : (relativePath names).pieces = (relativePath names').pieces :=
    congrArg (Text.pieces '/') h
  rw [pieces_relativePath hne, pieces_relativePath hne'] at hpieces
  exact List.map_injective_iff.2 (fun _ _ => Name.eq_of_text) hpieces

/-- Different names lead to different paths, whatever the root is. -/
theorem eq_of_join_relativePath {root : Path} {names names' : List Name} (hne : names ≠ [])
    (hne' : names' ≠ []) (h : root.join (relativePath names) = root.join (relativePath names')) :
    names = names' := by
  rw [Path.join, Path.join, not_isAbsolute_relativePath hne, not_isAbsolute_relativePath hne'] at h
  apply eq_of_relativePath hne hne'
  by_cases hroot : root.text = [] ∨ root.text.getLast? = some '/'
  · simpa [hroot] using h
  · simpa [hroot] using h

theorem not_mem_relativePath {c : Char} (hc : c ≠ '/') {names : List Name}
    (h : ∀ n ∈ names, c ∉ n.text) : c ∉ (relativePath names).text := by
  rw [relativePath, Path.ofPieces]
  induction names with
  | nil => exact List.not_mem_nil
  | cons name names ih =>
      obtain ⟨hname, hnames⟩ := List.forall_mem_cons.1 h
      cases names with
      | nil => exact hname
      | cons next names =>
          have := ih hnames
          simp_all [Text.join]

/-- The path along some names is the root's one with these names behind a slash, which may be there
already. -/
theorem text_join_relativePath {root : Path} {names : List Name} (hne : names ≠ [])
    (hroot : root.text ≠ []) :
    ∃ t, (root.join (relativePath names)).text = t ++ '/' :: (relativePath names).text ∧
      (root.text = t ∨ root.text = t ++ ['/']) := by
  rw [Path.join, not_isAbsolute_relativePath hne, if_neg (by decide)]
  by_cases hend : root.text.getLast? = some '/'
  · obtain ⟨t, ht⟩ := List.getLast?_eq_some_iff.1 hend
    rw [if_pos (.inr hend)]
    exact ⟨t, by simp [ht], .inr ht⟩
  · rw [if_neg (by simp [hroot, hend])]
    exact ⟨root.text, rfl, .inl rfl⟩

/-- A path that leads somewhere is a path that the system takes. -/
theorem text_of_resolve {d : Disk} {root : Path} {r : Disk.Destination × Nat}
    (h : d.resolve .read root = .ok r) : root.text ≠ [] ∧ '\x00' ∉ root.text := by
  constructor
  · intro hnil
    rw [Disk.resolve, if_pos hnil] at h
    cases h
  · intro hmem
    rw [Disk.resolve, if_neg (List.ne_nil_of_mem hmem), if_pos hmem] at h
    cases h

/-- The path along some names is followed from where the root leads, if the system takes it. -/
theorem resolve_join_relativePath_eq {d : Disk} {root : Path} {start : Location} {links : Nat}
    {names : List Name} (hroot : d.resolve .read root = .ok (.entry start, links))
    (hne : names ≠ []) :
    d.resolve .read (root.join (relativePath names)) =
      if '\x00' ∈ (relativePath names).text then .error .nulInPath
      else d.follow .read links start (names.map Name.text) := by
  obtain ⟨htext, hrootNul⟩ := text_of_resolve hroot
  rw [Disk.resolve, if_neg htext, if_neg hrootNul, Path.pieces] at hroot
  obtain ⟨t, hjoin, hend⟩ := text_join_relativePath hne htext
  have hfollow : d.follow .read Disk.maxLinks (Disk.base d.current root) (Text.pieces '/' t) =
      .ok (.entry start, links) := by
    obtain ht | ht := hend
    · rwa [ht] at hroot
    · rw [ht, Text.pieces_append_sep] at hroot
      exact Disk.follow_of_concat_nil hroot
  have hbase : Disk.base d.current (root.join (relativePath names)) =
      Disk.base d.current root := by
    rw [Disk.base, Disk.base, Path.isAbsolute, Path.isAbsolute, hjoin]
    obtain ht | ht := hend
    · rw [ht, List.head?_append_of_ne_nil _ (ht ▸ htext)]
    · rw [ht, List.head?_append, List.head?_append]
      rfl
  have hjoinNul : '\x00' ∈ (root.join (relativePath names)).text ↔
      '\x00' ∈ (relativePath names).text := by
    have ht : '\x00' ∉ t := by
      obtain ht | ht := hend
      · rwa [ht] at hrootNul
      · rw [ht, List.mem_append, not_or] at hrootNul
        exact hrootNul.1
    rw [hjoin]
    simp [ht]
  have hpieces : d.follow .read Disk.maxLinks (Disk.base d.current root)
      (root.join (relativePath names)).pieces =
        d.follow .read links start (names.map Name.text) := by
    rw [Path.pieces, hjoin, Text.pieces_append_sep, Disk.follow_append hfollow]
    exact congrArg _ (pieces_relativePath hne)
  rw [Disk.resolve, if_neg (by simp [hjoin]), hbase, hpieces]
  simp only [hjoinNul]

theorem resolve_join_relativePath {d : Disk} {root : Path} {start : Location} {links : Nat}
    {names : List Name} (hroot : d.resolve .read root = .ok (.entry start, links))
    (hne : names ≠ []) (hnul : ∀ n ∈ names, '\x00' ∉ n.text) :
    d.resolve .read (root.join (relativePath names)) =
      d.follow .read links start (names.map Name.text) := by
  rw [resolve_join_relativePath_eq hroot hne, if_neg (not_mem_relativePath (by decide) hnul)]

/-- So the names lead to where the system resolves their path to, as far as it takes the path. -/
theorem leadsTo_iff_resolve {d : Disk} {root : Path} {start loc : Location} {names : List Name}
    (hroot : d.LeadsTo root [] start) (hne : names ≠ []) (hnul : ∀ n ∈ names, '\x00' ∉ n.text) :
    d.LeadsTo root names loc ↔
      ∃ l, d.resolve .read (root.join (relativePath names)) = .ok (.entry loc, l) := by
  obtain ⟨start, links, l, hroot, -⟩ := hroot
  rw [resolve_join_relativePath hroot hne hnul]
  constructor
  · rintro ⟨start', links', l, hroot', hfollow⟩
    cases hroot.symm.trans hroot'
    exact ⟨l, hfollow⟩
  · rintro ⟨l, hfollow⟩
    exact ⟨start, links, l, hroot, hfollow⟩

/-- The pattern can be read. -/
def IsGlob (pattern : Text) : Prop := ∃ glob, readGlob pattern = .ok glob

/-- The pattern can be read and stands for the path along the names. -/
def Matches (pattern : Text) (names : List Name) : Prop :=
  ∃ glob, readGlob pattern = .ok glob ∧
    Glob.isMatch glob (Text.encode (relativePath names).text) = true

/-- Either all patterns can be read, or the answer is the error of one that cannot. -/
theorem mapM_readGlob (patterns : List Text) :
    (∃ globs, patterns.mapM readGlob = .ok globs ∧ (∀ p ∈ patterns, IsGlob p) ∧
      ∀ glob, glob ∈ globs ↔ ∃ p ∈ patterns, readGlob p = .ok glob) ∨
    ∃ e, patterns.mapM readGlob = .error e ∧ ∃ p ∈ patterns, ¬ IsGlob p := by
  induction patterns with
  | nil => exact .inl ⟨[], rfl, by simp, by simp⟩
  | cons p patterns ih =>
      rw [List.mapM_cons]
      cases hp : readGlob p with
      | error e =>
          refine .inr ⟨e, rfl, p, List.mem_cons_self .., ?_⟩
          rintro ⟨glob, hglob⟩
          rw [hp] at hglob
          cases hglob
      | ok glob =>
          obtain ⟨globs, hglobs, hall, hmem⟩ | ⟨e, he, q, hq, hnot⟩ := ih
          · refine .inl ⟨glob :: globs, by rw [hglobs]; rfl, ?_, fun g => ?_⟩
            · exact List.forall_mem_cons.2 ⟨⟨glob, hp⟩, hall⟩
            · simp [hmem, hp, eq_comm]
          · exact .inr ⟨e, by rw [he]; rfl, q, List.mem_cons_of_mem _ hq, hnot⟩

theorem matching_eq_error_iff (d : Disk) (root : Path) (patterns : List Text) :
    (∃ e, matching d root patterns = .error e) ↔ ∃ p ∈ patterns, ¬ IsGlob p := by
  rw [matching]
  obtain ⟨globs, hglobs, hall, -⟩ | ⟨e, he, hnot⟩ := mapM_readGlob patterns
  · rw [hglobs]
    constructor
    · rintro ⟨e, he⟩
      cases he
    · rintro ⟨p, hp, hnot⟩
      exact absurd (hall p hp) hnot
  · rw [he]
    exact ⟨fun _ => hnot, fun _ => ⟨e, rfl⟩⟩

/-- What the patterns match is what the walk finds with their depth and one of them matches. -/
theorem exists_matching {patterns : List Text} (h : ∀ p ∈ patterns, IsGlob p) (d : Disk)
    (root : Path) :
    ∃ found, matching d root patterns = .ok found ∧ found.Nodup ∧
      ∀ names, names ∈ found ↔ d.Finds root names ∧ (∀ n ∈ depth? patterns, names.length ≤ n) ∧
        ∃ p ∈ patterns, Matches p names := by
  obtain ⟨globs, hglobs, -, hmem⟩ | ⟨-, -, p, hp, hnot⟩ := mapM_readGlob patterns
  · rw [matching, hglobs]
    refine ⟨_, rfl, (d.nodup_walk root (depth? patterns)).filter _, fun names => ?_⟩
    rw [List.mem_filter, Disk.mem_walk_iff, List.any_eq_true, and_assoc]
    refine and_congr_right fun _ => and_congr_right fun _ => ⟨?_, ?_⟩
    · rintro ⟨glob, hglob, hmatch⟩
      obtain ⟨p, hp, hread⟩ := (hmem glob).1 hglob
      exact ⟨p, hp, glob, hread, hmatch⟩
    · rintro ⟨p, hp, glob, hread, hmatch⟩
      exact ⟨glob, (hmem glob).2 ⟨p, hp, hread⟩, hmatch⟩
  · exact absurd (h p hp) hnot

end Discovery

/-- What is found below a root. It is an error exactly if a pattern cannot be read. Otherwise the
paths are found that lead from the root to what the walk finds, no deeper than the patterns reach,
and that a pattern matches, each of them once; a root that leads to no directory has none. -/
theorem find_exact (d : Disk) (root : Path) (patterns : List Text) :
    ((∃ e, find d root patterns = .error e) ↔ ∃ p ∈ patterns, ¬ IsGlob p) ∧
      ((∀ p ∈ patterns, IsGlob p) → ∃ ps, find d root patterns = .ok ps ∧ ps.Nodup ∧
        (∀ path, path ∈ ps ↔ ∃ names, d.Finds root names ∧
          (∀ n ∈ depth? patterns, names.length ≤ n) ∧ (∃ p ∈ patterns, Matches p names) ∧
          path = root.join (relativePath names)) ∧
        ((¬ ∃ dir, d.LeadsTo root [] dir ∧ d.isDirectory dir = true) → ps = [])) := by
  constructor
  · rw [← matching_eq_error_iff d root patterns, find]
    cases matching d root patterns with
    | error e => exact ⟨fun _ => ⟨e, rfl⟩, fun _ => ⟨e, rfl⟩⟩
    | ok found => exact ⟨fun ⟨e, he⟩ => (nomatch he), fun ⟨e, he⟩ => (nomatch he)⟩
  · intro hall
    obtain ⟨found, hfound, hnodup, hmem⟩ := exists_matching hall d root
    rw [find, hfound]
    refine ⟨_, rfl, hnodup.map_on fun names hn names' hn' => ?_, fun path => ?_, fun hroot => ?_⟩
    · exact eq_of_join_relativePath ((hmem names).1 hn).1.ne_nil ((hmem names').1 hn').1.ne_nil
    · rw [List.mem_map]
      constructor
      · rintro ⟨names, hn, rfl⟩
        obtain ⟨hfinds, hdepth, hmatch⟩ := (hmem names).1 hn
        exact ⟨names, hfinds, hdepth, hmatch, rfl⟩
      · rintro ⟨names, hfinds, hdepth, hmatch, rfl⟩
        exact ⟨names, (hmem names).2 ⟨hfinds, hdepth, hmatch⟩, rfl⟩
    · rw [List.map_eq_nil_iff, List.eq_nil_iff_forall_not_mem]
      intro names hn
      obtain ⟨before, name, dir, trail, -, henters, -⟩ := ((hmem names).1 hn).1
      exact hroot henters.exists_root

end SamplerPorts
