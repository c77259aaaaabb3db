import SamplerPorts.Proofs.Discovering
import SamplerPorts.Proofs.Glob.Steps

/-!
That the depth of a walk hides no match. A pattern without two asterisks in a row matches no path
with more names than its text has, if each of its classes that takes slashes names the slash
(`length_le_of_matches`). Then what is found with the depth of the patterns is what a walk without a
depth finds, and what the patterns find one by one (`depth_hides_nothing`). Other classes take a
slash that the depth does not count, so what they match can be hidden
(`unnamed_slash_hidden`).
-/

namespace SamplerPorts
open Glob Discovery

theorem Text.length_pieces (sep : Char) (t : Text) :
    (Text.pieces sep t).length = t.count sep + 1 := by
  induction t with
  | nil => rfl
  | cons c t ih =>
      rw [pieces]
      by_cases hc : c = sep
      · rw [if_pos hc, hc, List.count_cons_self, List.length_cons, ih]
      · rw [if_neg hc, List.count_cons_of_ne hc, ← ih]
        cases h : pieces sep t with
        | nil => exact absurd h (pieces_ne_nil sep t)
        | cons piece more => rfl

theorem Text.count_slash_encode (t : Text) : (encode t).count slash = t.count '/' := by
  induction t with
  | nil => rfl
  | cons c t ih =>
      rw [encode_cons, List.count_append, ih]
      by_cases hc : c = '/'
      · subst hc
        rw [List.count_cons_self, Nat.add_comm]
        rfl
      · rw [count_slash_encodeChar hc, List.count_cons_of_ne hc, Nat.zero_add]

theorem Name.isStep_text (n : Name) : isStep n.text = true :=
  isStep_iff.2 ⟨n.isProper.1, n.isProper.2.1, n.isProper.2.2.1⟩

namespace Path

theorem nameCount_of_split {p : Path} {front : Option Component} {ps : List Text}
    (h : p.split = (front, ps)) (hfront : ∀ text, front ≠ some (.name text)) :
    p.nameCount = ps.countP isStep := by
  rw [nameCount, components, h, List.countP_append, componentsOf, List.countP_map,
    List.countP_filter, List.countP_eq_zero.2, Nat.zero_add]
  · refine List.countP_congr fun piece _ => ?_
    by_cases hparent : piece = ['.', '.']
    · subst hparent
      decide
    · simp [componentOf, hparent, isVoid, isStep]
  · rintro c hc
    cases c with
    | name text => exact absurd (Option.mem_toList.1 hc) (hfront text)
    | top | here | parent => simp

/-- The components that are names are the pieces that can be names. -/
theorem nameCount_eq (t : Text) : nameCount ⟨t⟩ = (Text.pieces '/' t).countP isStep := by
  cases hsplit : split ⟨t⟩ with
  | mk front ps =>
      have h := hsplit
      unfold split at h
      split at h
      · next hpieces =>
        obtain ⟨rfl, rfl⟩ := Prod.mk.inj h
        rw [nameCount_of_split hsplit (by simp), ← pieces.eq_1 ⟨t⟩, hpieces]
        rfl
      · next hpieces =>
        obtain ⟨rfl, rfl⟩ := Prod.mk.inj h
        rw [nameCount_of_split hsplit (by simp), ← pieces.eq_1 ⟨t⟩, hpieces]
        rfl
      · obtain ⟨rfl, rfl⟩ := Prod.mk.inj h
        rw [nameCount_of_split hsplit (by simp), pieces]

end Path

namespace Discovery

/-- Behind a slash, and behind each slash of the path along some names, is a name. -/
theorem stepsBehindSlashes_relativePath {names : List Name} (hne : names ≠ []) :
    StepsBehindSlashes (slash :: Text.encode (relativePath names).text) := by
  intro before piece rest hpath hrest
  by_cases hslash : '/' ∈ piece
  · exact isStep_of_mem (by decide) hslash
  have hpath : Text.encode ('/' :: (relativePath names).text) =
      before ++ UInt8.ofNat '/'.toNat :: (Text.encode piece ++ rest) :=
    (Text.encode_cons ..).trans hpath
  obtain ⟨u, v, htext, -, hv⟩ := Text.split_of_encode (by decide) hpath
  have hpiece : piece ∈ Text.pieces '/' v := by
    obtain rfl | ⟨more, rfl⟩ := hrest
    · rw [List.append_nil] at hv
      rw [Text.encode_injective hv, Text.pieces_of_not_mem hslash]
      exact List.mem_singleton_self _
    · obtain ⟨w, x, rfl, hw, -⟩ := Text.split_of_encode (a := '/') (by decide) hv
      rw [Text.encode_injective hw, Text.pieces_append_cons hslash]
      exact List.mem_cons_self ..
  have hnames : [] :: names.map Name.text = Text.pieces '/' u ++ Text.pieces '/' v := by
    rw [← Text.pieces_append_sep, ← htext, Text.pieces, if_pos rfl]
    exact congrArg _ (pieces_relativePath hne).symm
  obtain ⟨first, more, hu⟩ := List.exists_cons_of_ne_nil (Text.pieces_ne_nil '/' u)
  rw [hu, List.cons_append] at hnames
  have hmem : piece ∈ names.map Name.text := by
    rw [(List.cons.inj hnames).2]
    exact List.mem_append_right _ hpiece
  obtain ⟨n, -, rfl⟩ := List.mem_map.1 hmem
  exact n.isStep_text

/-- A pattern without the dot and the slash that it may be written with. -/
def globOf (pattern : Text) : Text := (Text.rest? ['.', '/'] pattern).getD pattern

/-- Each class of the pattern that takes slashes names the slash as a bound of a range. -/
def ShowsSlashes (pattern : Text) : Prop :=
  ∀ l ∈ Lexeme.scan .outside (globOf pattern), l.showsSlash = true

theorem parse_of_readGlob {pattern : Text} {glob : List Token}
    (h : readGlob pattern = .ok glob) : parse (globOf pattern) = .ok glob := by
  rw [readGlob, ← globOf] at h
  cases hparse : parse (globOf pattern) with
  | ok tokens => simpa [hparse] using h
  | error cause => simp [hparse] at h

theorem globOf_cases (pattern : Text) :
    pattern = globOf pattern ∨ pattern = '.' :: '/' :: globOf pattern := by
  rw [globOf]
  cases h : Text.rest? ['.', '/'] pattern with
  | none => exact .inl rfl
  | some glob => exact .inr (Text.rest?_eq_some_iff.1 h)

theorem globOf_suffix (pattern : Text) : globOf pattern <:+ pattern := by
  obtain h | h := globOf_cases pattern
  · exact ⟨[], h.symm⟩
  · exact ⟨['.', '/'], h.symm⟩

theorem nameCount_globOf (pattern : Text) :
    Path.nameCount ⟨globOf pattern⟩ = Path.nameCount ⟨pattern⟩ := by
  obtain h | h := globOf_cases pattern
  · rw [← h]
  · generalize globOf pattern = glob at h
    subst h
    rw [Path.nameCount_eq, Path.nameCount_eq]
    simp [Text.pieces, isStep]

/-- A pattern with a depth matches no path that is deeper. -/
theorem length_le_of_matches {pattern : Text} {names : List Name} (hmatch : Matches pattern names)
    (hshow : ShowsSlashes pattern) {n : Nat} (hdepth : depthOf? pattern = some n) :
    names.length ≤ n := by
  by_cases hne : names = []
  · simp [hne]
  · obtain ⟨glob, hread, hmatch⟩ := hmatch
    rw [depthOf?] at hdepth
    split at hdepth
    · cases hdepth
    · next hstars =>
      rw [Text.has_iff] at hstars
      have hlt := count_slash_lt_of_isMatch (parse_of_readGlob hread)
        (fun h => hstars (h.trans (globOf_suffix pattern).isInfix)) hshow
        (stepsBehindSlashes_relativePath hne) hmatch
      have hlength : (relativePath names).text.count '/' + 1 = names.length := by
        rw [← Text.length_pieces]
        exact (congrArg _ (pieces_relativePath hne)).trans (List.length_map _)
      rw [Text.count_slash_encode, ← Path.nameCount_eq, nameCount_globOf,
        Option.some.inj hdepth] at hlt
      omega

theorem exists_depth_of_mapM {patterns : List Text} {depths : List Nat}
    (h : patterns.mapM depthOf? = some depths) {p : Text} (hp : p ∈ patterns) :
    ∃ k ∈ depths, depthOf? p = some k := by
  induction patterns generalizing depths with
  | nil => cases hp
  | cons q patterns ih =>
      rw [List.mapM_cons] at h
      obtain ⟨k, hk, h⟩ := Option.bind_eq_some_iff.1 h
      obtain ⟨ks, hks, h⟩ := Option.bind_eq_some_iff.1 h
      obtain rfl : k :: ks = depths := Option.some.inj h
      obtain rfl | hp := List.mem_cons.1 hp
      · exact ⟨k, List.mem_cons_self .., hk⟩
      · obtain ⟨j, hj, hdepth⟩ := ih hks hp
        exact ⟨j, List.mem_cons_of_mem _ hj, hdepth⟩

/-- The depth of some patterns is not less than the depth of one of them. -/
theorem exists_depthOf_of_mem {patterns : List Text} {n : Nat} (hn : n ∈ depth? patterns)
    {p : Text} (hp : p ∈ patterns) : ∃ k, depthOf? p = some k ∧ k ≤ n := by
  obtain ⟨depths, hdepths, rfl⟩ := Option.map_eq_some_iff.1 hn
  obtain ⟨k, hk, hdepth⟩ := exists_depth_of_mapM hdepths hp
  exact ⟨k, hdepth, (Disk.le_foldl_max depths 0).2 k hk⟩

/-- No pattern matches a path that is deeper than the depth of all patterns. -/
theorem length_le_of_depth? {patterns : List Text}
    (hshow : ∀ p ∈ patterns, depthOf? p ≠ none → ShowsSlashes p) {p : Text} (hp : p ∈ patterns)
    {names : List Name} (hmatch : Matches p names) : ∀ n ∈ depth? patterns, names.length ≤ n := by
  intro n hn
  obtain ⟨k, hdepth, hle⟩ := exists_depthOf_of_mem hn hp
  have hshow : ShowsSlashes p := hshow p hp (by simp [hdepth])
  exact Nat.le_trans (length_le_of_matches hmatch hshow hdepth) hle

/-- So the depth has no part in what is found. -/
theorem exists_find {patterns : List Text} (hglobs : ∀ p ∈ patterns, IsGlob p)
    (hshow : ∀ p ∈ patterns, depthOf? p ≠ none → ShowsSlashes p) (d : Disk) (root : Path) :
    ∃ ps, find d root patterns = .ok ps ∧ ∀ path, path ∈ ps ↔ ∃ names ∈ d.walk root none,
      (∃ p ∈ patterns, Matches p names) ∧ path = root.join (relativePath names) := by
  obtain ⟨found, hfound, -, hmem⟩ := exists_matching hglobs d root
  rw [find, hfound]
  refine ⟨_, rfl, fun path => List.mem_map.trans ⟨?_, ?_⟩⟩
  · rintro ⟨names, hnames, rfl⟩
    obtain ⟨hfinds, -, hmatch⟩ := (hmem names).1 hnames
    exact ⟨names, Disk.mem_walk_iff.2 ⟨hfinds, by simp⟩, hmatch, rfl⟩
  · rintro ⟨names, hwalk, ⟨p, hp, hmatch⟩, rfl⟩
    have hdepth := length_le_of_depth? hshow hp hmatch
    exact ⟨names, (hmem names).2 ⟨(Disk.mem_walk_iff.1 hwalk).1, hdepth, p, hp, hmatch⟩, rfl⟩

end Discovery

/-- The depth of a walk hides nothing as long as in each pattern with a depth the classes that take
slashes name the slash. No path that a pattern matches is deeper; what is found are the paths in a
walk without a depth that a pattern matches; and they are what the patterns find one by one. -/
theorem depth_hides_nothing (d : Disk) (root : Path) (patterns : List Text)
    (hglobs : ∀ p ∈ patterns, IsGlob p)
    (hshow : ∀ p ∈ patterns, depthOf? p ≠ none → ShowsSlashes p) :
    (∀ p ∈ patterns, ∀ names, Matches p names → ∀ n ∈ depth? patterns, names.length ≤ n) ∧
      ∃ ps, find d root patterns = .ok ps ∧
        (∀ path, path ∈ ps ↔ ∃ names ∈ d.walk root none, (∃ p ∈ patterns, Matches p names) ∧
          path = root.join (relativePath names)) ∧
        ∀ path, path ∈ ps ↔ ∃ p ∈ patterns, ∃ qs, find d root [p] = .ok qs ∧ path ∈ qs := by
  obtain ⟨ps, hps, hmem⟩ := exists_find hglobs hshow d root
  refine ⟨fun p hp names => length_le_of_depth? hshow hp, ps, hps, hmem, fun path => ?_⟩
  have hone {p : Text} (hp : p ∈ patterns) : ∃ qs, find d root [p] = .ok qs ∧
      ∀ path, path ∈ qs ↔ ∃ names ∈ d.walk root none,
        (∃ q ∈ [p], Matches q names) ∧ path = root.join (relativePath names) :=
    exists_find (by simpa using hglobs p hp) (by simpa using hshow p hp) d root
  rw [hmem]
  constructor
  · rintro ⟨names, hwalk, ⟨p, hp, hmatch⟩, hpath⟩
    obtain ⟨qs, hqs, hmem⟩ := hone hp
    exact ⟨p, hp, qs, hqs, (hmem path).2 ⟨names, hwalk, ⟨p, by simp, hmatch⟩, hpath⟩⟩
  · rintro ⟨p, hp, qs, hqs, hpath⟩
    obtain ⟨qs', hqs', hmem⟩ := hone hp
    obtain rfl : qs' = qs := Except.ok.inj (hqs'.symm.trans hqs)
    obtain ⟨names, hwalk, ⟨q, hq, hmatch⟩, hpath⟩ := (hmem path).1 hpath
    obtain rfl := List.mem_singleton.1 hq
    exact ⟨names, hwalk, ⟨q, hp, hmatch⟩, hpath⟩

namespace Disk

def outerName : Name := ⟨['a'], by decide⟩

def innerName : Name := ⟨['b'], by decide⟩

/-- The disk on which a file is in a directory. -/
def nested : Disk where
  entries := [([outerName], .directory), ([innerName, outerName], .file [])]
  current := []
  nodup := by decide

theorem walk_nested (depth : Option Nat) :
    nested.walk (.ofString ".") depth = nested.below (depth.getD 123) maxLinks [[]] [] :=
  walk_here nested depth

theorem innerName_mem_walk : [outerName, innerName] ∈ nested.walk (.ofString ".") none := by
  have hwalk : nested.walk (.ofString ".") none = [[outerName], [outerName, innerName]] :=
    walk_nested none
  simp [hwalk]

end Disk

/-- A pattern with a class that names the slash, and one that is not as deep. -/
def namedSlash : List Text := ["a[/]b".toList, "*".toList]

theorem depth_hides_nothing_nested :
    (∀ p ∈ namedSlash, IsGlob p) ∧ (∀ p ∈ namedSlash, depthOf? p ≠ none → ShowsSlashes p) ∧
      ∃ ps, find .nested (.ofString ".") namedSlash = .ok ps ∧ .ofString "./a/b" ∈ ps ∧
        ∀ path, path ∈ ps ↔
          ∃ p ∈ namedSlash, ∃ qs, find .nested (.ofString ".") [p] = .ok qs ∧ path ∈ qs := by
  have hglobs : ∀ p ∈ namedSlash, IsGlob p :=
    List.forall_mem_cons.2 ⟨⟨_, rfl⟩, List.forall_mem_singleton.2 ⟨_, rfl⟩⟩
  have hshow : ∀ p ∈ namedSlash, depthOf? p ≠ none → ShowsSlashes p := by
    unfold ShowsSlashes
    decide
  obtain ⟨-, ps, hps, hmem, hunion⟩ := depth_hides_nothing .nested (.ofString ".") _ hglobs hshow
  have hmatch : Matches "a[/]b".toList [Disk.outerName, Disk.innerName] := ⟨_, rfl, by decide⟩
  refine ⟨hglobs, hshow, ps, hps, ?_, hunion⟩
  exact (hmem _).2 ⟨_, Disk.innerName_mem_walk, ⟨_, List.mem_cons_self .., hmatch⟩, by decide⟩

/-- A pattern with a class that takes the slash but does not name it. -/
def unnamedSlash : Text := "a[!x]b".toList

/-- What such a pattern matches is hidden by its depth, unless another pattern is deeper. -/
theorem unnamed_slash_hidden :
    IsGlob unnamedSlash ∧ Text.has ['*', '*'] unnamedSlash = false ∧
      Matches unnamedSlash [Disk.outerName, Disk.innerName] ∧
      [Disk.outerName, Disk.innerName] ∈ Disk.nested.walk (.ofString ".") none ∧
      depth? [unnamedSlash] = some 1 ∧
      find .nested (.ofString ".") [unnamedSlash] = .ok [] ∧
      find .nested (.ofString ".") ["x/y".toList] = .ok [] ∧
      find .nested (.ofString ".") [unnamedSlash, "x/y".toList] = .ok [.ofString "./a/b"] := by
  refine ⟨⟨_, rfl⟩, by decide, ⟨_, rfl, by decide⟩, Disk.innerName_mem_walk, by decide, ?_, ?_, ?_⟩
  all_goals
    rw [find, matching]
    simp only [Disk.walk_nested]
    rfl

end SamplerPorts
