import Mathlib.Data.List.Induction
import SamplerPorts.Proofs.DepthBound

/-!
Paths that a pattern spells out. A pattern without signs matches the path that it spells and no
other one (`matches_relativePath_iff`), and the walk comes to an entry along each path to it that
has no hidden name and does not lead back to where it came through (`finds_of_hasEntry`). So the
pattern finds its path, unless a name in it is hidden: such a path is passed over although no sign
stands for the name (`spelled_path_found`).
-/

namespace SamplerPorts
open Glob Discovery

namespace Glob

/-- The characters that stand for something else than themselves. -/
def signs : List Char := ['*', '?', '[', '{', '}', ',', '\\']

def IsPlain (t : Text) : Prop := ∀ c ∈ signs, c ∉ t

instance (t : Text) : Decidable (IsPlain t) := List.decidableBAll (· ∉ t) signs

namespace Lexeme

theorem ofChar_of_not_mem {c : Char} (h : c ∉ signs) : ofChar c = plain c := by
  unfold ofChar
  split
  case h_6 => rfl
  all_goals exact absurd (by decide) h

theorem scan_of_isPlain {t : Text} (h : IsPlain t) : scan .outside t = t.map plain := by
  induction t with
  | nil => rfl
  | cons c t ih =>
      have hc : c ∉ signs := fun hmem => h c hmem (List.mem_cons_self ..)
      have ht : IsPlain t := fun s hs hmem => h s hs (List.mem_cons_of_mem _ hmem)
      have hbracket : c ≠ '[' := fun heq => hc (heq ▸ by decide)
      have hslash : c ≠ '\\' := fun heq => hc (heq ▸ by decide)
      rw [scan, if_neg hbracket, if_neg hslash, ofChar_of_not_mem hc, ih ht]
      rfl

end Lexeme

theorem parseFrom_plain (r : Reading) (hr : r.groups = []) (t : Text) :
    parseFrom r (t.map .plain) = .ok (r.tokens.reverse ++ Token.literals t) := by
  induction t generalizing r with
  | nil => simp [parseFrom, Reading.finish, hr, Token.literals]
  | cons c t ih =>
      rw [List.map_cons, parseFrom, ih (r.push (.literal c) c) hr]
      simp [Reading.push, Token.literals]

theorem parse_of_isPlain {t : Text} (h : IsPlain t) : parse t = .ok (Token.literals t) := by
  rw [parse, Lexeme.scan_of_isPlain h]
  exact parseFrom_plain .start rfl t

theorem isMatch_literals_iff (t : Text) (bs : Bytes) :
    isMatch (Token.literals t) bs = true ↔ bs = Text.encode t := by
  have hmatch : isMatch (Token.literals t) bs =
      (Token.restsOfAll (Token.literals t) [bs]).contains [] := by
    obtain _ | ⟨c, _ | ⟨d, t⟩⟩ := t <;> rfl
  rw [hmatch, List.contains_iff_mem, ← List.append_nil (Token.literals t),
    Token.mem_restsOfAll_literals]
  constructor
  · rintro ⟨r, rfl, hr⟩
    obtain rfl : r = [] := by simpa [Token.restsOfAll, eq_comm] using hr
    exact List.append_nil _
  · rintro rfl
    exact ⟨[], (List.append_nil _).symm, by simp [Token.restsOfAll]⟩

end Glob

namespace Discovery
variable {names : List Name}

theorem isPlain_relativePath (h : ∀ n ∈ names, IsPlain n.text) :
    IsPlain (relativePath names).text := by
  intro c hc
  refine not_mem_relativePath ?_ fun n hn => h n hn c hc
  rintro rfl
  exact absurd hc (by decide)

theorem readGlob_relativePath (hne : names ≠ []) (h : ∀ n ∈ names, IsPlain n.text) :
    readGlob (relativePath names).text = .ok (Token.literals (relativePath names).text) := by
  have hdot : Text.rest? ['.', '/'] (relativePath names).text = none := by
    rw [Option.eq_none_iff_forall_ne_some]
    intro rest hrest
    have hpieces := pieces_relativePath hne
    rw [Path.pieces, Text.rest?_eq_some_iff.1 hrest] at hpieces
    obtain ⟨name, more, rfl⟩ := List.exists_cons_of_ne_nil hne
    exact name.isProper.2.1 (List.cons.inj hpieces).1.symm
  rw [readGlob, hdot]
  simp only [Option.getD_none, parse_of_isPlain (isPlain_relativePath h)]

/-- The path that names spell out is matched by itself alone. -/
theorem matches_relativePath_iff (hne : names ≠ []) (h : ∀ n ∈ names, IsPlain n.text)
    {names' : List Name} (hne' : names' ≠ []) :
    Matches (relativePath names).text names' ↔ names' = names := by
  rw [Matches, readGlob_relativePath hne h]
  constructor
  · rintro ⟨glob, hglob, hmatch⟩
    obtain rfl := Except.ok.inj hglob
    exact eq_of_relativePath hne' hne (Text.encode_injective ((isMatch_literals_iff ..).1 hmatch))
  · rintro rfl
    exact ⟨_, rfl, (isMatch_literals_iff ..).2 rfl⟩

theorem nameCount_relativePath (hne : names ≠ []) :
    (relativePath names).nameCount = names.length := by
  have hsteps : ∀ piece ∈ names.map Name.text, isStep piece = true :=
    List.forall_mem_map.2 fun n _ => n.isStep_text
  calc (relativePath names).nameCount
      = (relativePath names).pieces.countP isStep := Path.nameCount_eq _
    _ = (names.map Name.text).length := by
        rw [pieces_relativePath hne, List.countP_eq_length.2 hsteps]
    _ = names.length := List.length_map _

theorem depth?_relativePath (hne : names ≠ []) (h : ∀ n ∈ names, IsPlain n.text) :
    depth? [(relativePath names).text] = some names.length := by
  have hstars : Text.has ['*', '*'] (relativePath names).text = false := by
    rw [Bool.eq_false_iff, Ne, Text.has_iff]
    intro hsigns
    exact isPlain_relativePath h '*' (by decide) (hsigns.mem (List.mem_cons_self ..))
  have hdepth : depthOf? (relativePath names).text = some names.length := by
    rw [depthOf?, hstars, if_neg (by decide)]
    exact congrArg some (nameCount_relativePath hne)
  simp [depth?, hdepth]

end Discovery

namespace Disk
variable {d : Disk} {root : Path} {names : List Name} {name : Name} {dir sub : Location}
  {trail : List Location} {links l : Nat}

/-- The names lead to an entry: along all but the last one to a directory that has an entry of the
last name. -/
def HasEntry (d : Disk) (root : Path) (names : List Name) : Prop :=
  ∃ before name dir, names = before ++ [name] ∧ d.LeadsTo root before dir ∧
    d.isDirectory dir = true ∧ d.find? (name :: dir) ≠ none

/-- One of the names is a link back to a directory that the names before it lead through. -/
def LeadsBack (d : Disk) (root : Path) (names : List Name) : Prop :=
  ∃ before name dir target earlier sub, before ++ [name] <+: names ∧ d.LeadsTo root before dir ∧
    d.find? (name :: dir) = some (.link target) ∧ d.LeadsTo root (before ++ [name]) sub ∧
    earlier <+: before ∧ d.LeadsTo root earlier sub

theorem LeadsBack.append (h : d.LeadsBack root names) (more : List Name) :
    d.LeadsBack root (names ++ more) := by
  obtain ⟨before, name, dir, target, earlier, sub, hbefore, h⟩ := h
  exact ⟨before, name, dir, target, earlier, sub, hbefore.trans (List.prefix_append ..), h⟩

theorem LeadsTo.unique (h : d.LeadsTo root names dir) (h' : d.LeadsTo root names sub) :
    dir = sub := by
  obtain ⟨start, links, l, hroot, hfollow⟩ := h
  obtain ⟨start', links', l', hroot', hfollow'⟩ := h'
  rw [hroot] at hroot'
  cases hroot'
  rw [hfollow] at hfollow'
  cases hfollow'
  rfl

theorem directory_or_link_of_follow (hdir : d.isDirectory dir = true)
    (h : d.follow .read links dir [name.text] = .ok (.entry sub, l))
    (hsub : d.isDirectory sub = true) :
    d.find? (name :: dir) = some .directory ∨
      ∃ target, d.find? (name :: dir) = some (.link target) := by
  cases he : d.find? (name :: dir) with
  | none =>
      rw [follow_cons, next, hdir, Name.ofText?_text] at h
      simp [he] at h
  | some e =>
      cases e with
      | directory => exact .inl rfl
      | link target => exact .inr ⟨target, rfl⟩
      | file content =>
          rw [follow_name hdir he (by simp)] at h
          cases h
          simp [isDirectory, he] at hsub

/-- The walk is only in directories that the names lead to on the way. -/
theorem Enters.exists_leadsTo (h : d.Enters root names dir trail) :
    ∀ loc ∈ dir :: trail, ∃ earlier, earlier <+: names ∧ d.LeadsTo root earlier loc := by
  refine List.forall_mem_cons.2 ⟨⟨names, List.prefix_rfl, h.leadsTo⟩, ?_⟩
  induction h with
  | root => simp
  | directory hbefore _ _ ih | link hbefore _ _ _ _ _ ih =>
      refine List.forall_mem_cons.2 ⟨⟨_, List.prefix_append .., hbefore.leadsTo⟩, fun loc hloc => ?_⟩
      obtain ⟨earlier, hearlier, hleads⟩ := ih loc hloc
      exact ⟨earlier, hearlier.trans (List.prefix_append ..), hleads⟩

/-- The walk comes along all names that are shown and do not lead back. -/
theorem exists_enters (h : d.LeadsTo root names dir) (hdir : d.isDirectory dir = true)
    (hshown : ∀ n ∈ names, n.isHidden = false) (hback : ¬ d.LeadsBack root names) :
    ∃ trail, d.Enters root names dir trail := by
  induction names using List.reverseRecOn generalizing dir with
  | nil => exact ⟨[], .root h hdir⟩
  | append_singleton before name ih =>
      have hlong := h
      obtain ⟨start, links, l, hroot, hfollow⟩ := h
      rw [List.map_append] at hfollow
      obtain ⟨outer, k, hbefore, hname⟩ := exists_follow_of_append hfollow
      have hshort : d.LeadsTo root before outer := ⟨start, links, k, hroot, hbefore⟩
      have houter : d.isDirectory outer = true := by
        cases hd : d.isDirectory outer with
        | true => rfl
        | false =>
            rw [follow_of_not_isDirectory hd (by simp)] at hname
            cases hname
      obtain ⟨trail, henters⟩ := ih hshort houter
        (fun n hn => hshown n (List.mem_append_left _ hn)) (fun hb => hback (hb.append _))
      have hnshown : name.isHidden = false := hshown name (by simp)
      obtain hentry | ⟨target, hlink⟩ := directory_or_link_of_follow houter hname hdir
      · rw [List.map_singleton, follow_name houter hentry (by simp)] at hname
        cases hname
        exact ⟨outer :: trail, henters.directory hnshown hentry⟩
      · refine ⟨outer :: trail, henters.link hnshown hlink hlong hdir fun hmem => ?_⟩
        obtain ⟨earlier, hearlier, hleads⟩ := henters.exists_leadsTo dir hmem
        exact hback ⟨before, name, outer, target, earlier, dir, List.prefix_rfl, hshort, hlink,
          hlong, hearlier, hleads⟩

theorem Enters.shown (h : d.Enters root names dir trail) : ∀ n ∈ names, n.isHidden = false := by
  induction h with
  | root => simp
  | directory _ hshown _ ih | link _ hshown _ _ _ _ ih =>
      simp only [List.mem_append, List.mem_singleton]
      rintro n (hn | rfl)
      · exact ih n hn
      · exact hshown

/-- The walk comes to an entry along the names to it exactly if they are all shown. -/
theorem finds_of_hasEntry (hentry : d.HasEntry root names) (hback : ¬ d.LeadsBack root names) :
    d.Finds root names ↔ ∀ n ∈ names, n.isHidden = false := by
  constructor
  · rintro ⟨before, name, dir, trail, rfl, henters, hshown, -⟩
    simp only [List.mem_append, List.mem_singleton]
    rintro n (hn | rfl)
    · exact henters.shown n hn
    · exact hshown
  · intro hshown
    obtain ⟨before, name, dir, rfl, hleads, hdir, hname⟩ := hentry
    obtain ⟨trail, henters⟩ := exists_enters hleads hdir
      (fun n hn => hshown n (List.mem_append_left _ hn)) (fun hb => hback (hb.append _))
    exact ⟨before, name, dir, trail, rfl, henters, hshown name (by simp), hname⟩

end Disk

/-- A pattern without signs finds the path that it spells out, if the path leads to an entry and
does not lead back to a directory on the way. It finds that path alone, and none if a name in it is
hidden. -/
theorem spelled_path_found (d : Disk) (root : Path) (names : List Name)
    (hentry : d.HasEntry root names) (hplain : ∀ n ∈ names, IsPlain n.text)
    (hback : ¬ d.LeadsBack root names) :
    find d root [(relativePath names).text] =
      .ok (if names.any Name.isHidden then [] else [root.join (relativePath names)]) := by
  have hne : names ≠ [] := by
    obtain ⟨before, name, dir, rfl, -⟩ := hentry
    simp
  have hglob : ∀ p ∈ [(relativePath names).text], IsGlob p :=
    List.forall_mem_singleton.2 ⟨_, readGlob_relativePath hne hplain⟩
  obtain ⟨found, hfound, hnodup, hmem⟩ := exists_matching hglob d root
  have hmem (ns : List Name) : ns ∈ found ↔ ns = names ∧ d.Finds root names := by
    rw [hmem, depth?_relativePath hne hplain]
    constructor
    · rintro ⟨hfinds, -, p, hp, hmatch⟩
      obtain rfl := List.mem_singleton.1 hp
      obtain rfl := (matches_relativePath_iff hne hplain hfinds.ne_nil).1 hmatch
      exact ⟨rfl, hfinds⟩
    · rintro ⟨rfl, hfinds⟩
      exact ⟨hfinds, by simp, _, List.mem_singleton_self _,
        (matches_relativePath_iff hne hplain hne).2 rfl⟩
  have hfound' : found = if names.any Name.isHidden then [] else [names] := by
    cases hhidden : names.any Name.isHidden with
    | true =>
        obtain ⟨n, hn, hnhidden⟩ := List.any_eq_true.1 hhidden
        rw [if_pos rfl, List.eq_nil_iff_forall_not_mem]
        intro ns hns
        have hshown := (Disk.finds_of_hasEntry hentry hback).1 ((hmem ns).1 hns).2 n hn
        rw [hnhidden] at hshown
        cases hshown
    | false =>
        have hfinds : d.Finds root names :=
          (Disk.finds_of_hasEntry hentry hback).2 (by simpa using hhidden)
        rw [if_neg (by decide)]
        refine List.perm_singleton.1 ((List.perm_ext_iff_of_nodup hnodup
          (List.nodup_singleton _)).2 fun ns => ?_)
        rw [hmem, List.mem_singleton]
        exact and_iff_left hfinds
  rw [find, hfound, hfound']
  cases names.any Name.isHidden <;> rfl

namespace Disk

def aliasName : Name := ⟨['c'], by decide⟩

/-- The disk on which a directory with a file has a link to it. -/
def aliased : Disk where
  entries := [([outerName], .directory), ([innerName, outerName], .file []),
    ([aliasName], .link ⟨outerName.text⟩)]
  current := []
  nodup := by decide

theorem leadsTo_here {d : Disk} (h : d.isDirectory d.current = true) :
    d.LeadsTo (.ofString ".") [] d.current :=
  ⟨d.current, maxLinks, maxLinks, resolve_here h, follow.eq_1 ..⟩

theorem leadsTo_aliasName : aliased.LeadsTo (.ofString ".") [aliasName] [outerName] := by
  refine ⟨[], maxLinks, 39, resolve_here rfl, ?_⟩
  calc aliased.follow .read maxLinks [] [aliasName.text]
      = aliased.follow .read 39 [] [outerName.text] := follow_cons ..
    _ = aliased.follow .read 39 [outerName] [] := follow_cons ..
    _ = .ok (.entry [outerName], 39) := follow.eq_1 ..

/-- The only link leads away from the directory that it is in. -/
theorem not_leadsBack_aliased : ¬ aliased.LeadsBack (.ofString ".") [aliasName, innerName] := by
  rintro ⟨before, name, dir, target, earlier, sub, hbefore, hdir, hlink, hsub, hearlier, hback⟩
  obtain _ | ⟨first, _ | ⟨second, before⟩⟩ := before
  · obtain ⟨rfl, -⟩ := List.cons_prefix_cons.1 hbefore
    obtain rfl := List.prefix_nil.1 hearlier
    obtain rfl := hsub.unique leadsTo_aliasName
    cases hback.unique (leadsTo_here rfl)
  · obtain ⟨rfl, hname⟩ := List.cons_prefix_cons.1 hbefore
    obtain ⟨rfl, -⟩ := List.cons_prefix_cons.1 hname
    obtain rfl := hdir.unique leadsTo_aliasName
    cases hlink
  · have hlength := hbefore.length_le
    simp at hlength

end Disk

theorem spelled_path_found_through_link :
    Disk.aliased.HasEntry (.ofString ".") [Disk.aliasName, Disk.innerName] ∧
      (∀ n ∈ [Disk.aliasName, Disk.innerName], IsPlain n.text) ∧
      ¬ Disk.aliased.LeadsBack (.ofString ".") [Disk.aliasName, Disk.innerName] ∧
      find .aliased (.ofString ".") ["c/b".toList] = .ok [.ofString "./c/b"] := by
  have hentry : Disk.aliased.HasEntry (.ofString ".") [Disk.aliasName, Disk.innerName] :=
    ⟨[Disk.aliasName], Disk.innerName, _, rfl, Disk.leadsTo_aliasName, rfl, by decide⟩
  have hplain : ∀ n ∈ [Disk.aliasName, Disk.innerName], IsPlain n.text := by decide
  refine ⟨hentry, hplain, Disk.not_leadsBack_aliased, ?_⟩
  exact spelled_path_found .aliased (.ofString ".") _ hentry hplain Disk.not_leadsBack_aliased

namespace Disk

def draftName : Name := ⟨".draft.jmx".toList, by decide⟩

/-- The disk on which the only file is hidden. -/
def hiddenDraft : Disk where
  entries := [([draftName], .file [])]
  current := []
  nodup := by decide

theorem not_leadsBack_hiddenDraft : ¬ hiddenDraft.LeadsBack (.ofString ".") [draftName] := by
  rintro ⟨before, name, dir, target, earlier, sub, hbefore, hdir, hlink, -⟩
  obtain _ | ⟨first, before⟩ := before
  · obtain ⟨rfl, -⟩ := List.cons_prefix_cons.1 hbefore
    obtain rfl := hdir.unique (leadsTo_here rfl)
    cases hlink
  · have hlength := hbefore.length_le
    simp at hlength

end Disk

/-- A hidden file is not found by the pattern that spells its name out. -/
theorem hidden_draft_not_found :
    Disk.hiddenDraft.HasEntry (.ofString ".") [Disk.draftName] ∧
      (∀ n ∈ [Disk.draftName], IsPlain n.text) ∧
      ¬ Disk.hiddenDraft.LeadsBack (.ofString ".") [Disk.draftName] ∧
      find .hiddenDraft (.ofString ".") [(relativePath [Disk.draftName]).text] = .ok [] ∧
      (Path.ofString ".").join (relativePath [Disk.draftName]) = .ofString "./.draft.jmx" := by
  refine ⟨⟨[], Disk.draftName, [], rfl, Disk.leadsTo_here rfl, rfl, by decide⟩, by decide,
    Disk.not_leadsBack_hiddenDraft, ?_, by decide⟩
  rw [find, matching]
  simp only [Disk.walk_here]
  rfl

end SamplerPorts
