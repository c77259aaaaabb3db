import SamplerPorts.Proofs.Discovering

/-!
Paths below a root, as they are seen from the root. The pieces of a root, however it is written,
stay at the front of the path along some names below it, and only voids may come between the last
component of the root and the first name. So what is left of the path without the root are the names
(`relativeTo?_join_relativePath`).
-/

namespace SamplerPorts
open Discovery

theorem Name.isVoid_text (n : Name) : Path.isVoid n.text = false := by
  simp [Path.isVoid, n.isProper]

namespace Path
variable {p : Path} {piece : Text} {ps ns : List Text}

theorem split_of_top (h : p.pieces = [] :: piece :: ps) : p.split = (some .top, piece :: ps) := by
  rw [split, h]

theorem split_of_here (h : p.pieces = ['.'] :: ps) : p.split = (some .here, ps) := by
  rw [split, h]
  cases ps <;> rfl

theorem split_of_not_isVoid (h : p.pieces = piece :: ps) (hpiece : isVoid piece = false) :
    p.split = (none, piece :: ps) := by
  have hvoid : piece ≠ [] ∧ piece ≠ ['.'] := by simpa [isVoid] using hpiece
  rw [split, h]
  split
  · next heq => exact absurd (List.cons.inj heq).1 hvoid.1
  · next heq => exact absurd (List.cons.inj heq).1 hvoid.2
  · rfl

theorem componentsOf_cons (piece : Text) (ps : List Text) :
    componentsOf (piece :: ps) =
      if isVoid piece then componentsOf ps else componentOf piece :: componentsOf ps := by
  cases h : isVoid piece <;> simp [componentsOf, h]

theorem componentsOf_append (ps qs : List Text) :
    componentsOf (ps ++ qs) = componentsOf ps ++ componentsOf qs := by
  simp [componentsOf]

/-- Behind the components of some pieces are the pieces that follow, perhaps with voids between. -/
theorem dropComponents_append (ps ns : List Text) :
    (dropComponents (componentsOf ps) (ps ++ ns)).map (List.dropWhile isVoid) =
      some (ns.dropWhile isVoid) := by
  induction ps with
  | nil => rfl
  | cons piece ps ih =>
      rw [componentsOf_cons, List.cons_append]
      cases hvoid : isVoid piece with
      | true =>
          rw [if_pos rfl]
          cases hcs : componentsOf ps with
          | nil => simpa [hcs, dropComponents, hvoid] using ih
          | cons c cs => simpa [hcs, dropComponents, hvoid] using ih
      | false => simpa [dropComponents, hvoid] using ih

theorem dropWhile_isVoid_of_forall (h : ∀ piece ∈ ps, isVoid piece = false) :
    ps.dropWhile isVoid = ps := by
  cases ps with
  | nil => rfl
  | cons piece ps => rw [List.dropWhile_cons, h piece (List.mem_cons_self ..), if_neg (by decide)]

theorem trimEnd_of_forall (h : ∀ piece ∈ ps, isVoid piece = false) : trimEnd ps = ps := by
  rw [trimEnd, dropWhile_isVoid_of_forall fun piece hmem => h piece (List.mem_reverse.1 hmem),
    List.reverse_reverse]

/-- Two paths with the same front, of which the second one has the components of the first one and
then other pieces without voids. -/
theorem relativeTo?_of_split {base : Path} {front : Option Component} {bs : List Text}
    (hbase : base.split = (front, bs)) (hp : p.split = (front, ps ++ ns))
    (hsame : componentsOf ps = componentsOf bs) (hfront : front = none → componentsOf bs ≠ [])
    (hns : ∀ piece ∈ ns, isVoid piece = false) : p.relativeTo? base = some (ofPieces ns) := by
  have hdrop : (dropComponents (componentsOf bs) (ps ++ ns)).map (List.dropWhile isVoid) =
      some ns := by
    rw [← hsame, dropComponents_append, dropWhile_isVoid_of_forall hns]
  obtain ⟨left, hleft, hrest⟩ := Option.map_eq_some_iff.1 hdrop
  rw [relativeTo?, hbase, hp]
  cases front with
  | none =>
      simp only [if_neg (hfront rfl), if_true, hleft, Option.map_some, hrest, trimEnd_of_forall hns]
  | some c => simp only [if_true, hleft, Option.map_some, hrest, trimEnd_of_forall hns]

end Path

namespace Discovery
variable {root : Path} {names : List Name}

/-- The root's pieces and those of a path below it: they begin in the same way, and where the root
ends in a slash it has a void piece more. -/
theorem exists_pieces (hne : names ≠ []) (hroot : root.text ≠ []) :
    ∃ ps tail, root.pieces = ps ++ tail ∧ Path.componentsOf tail = [] ∧ (ps = [[]] → tail ≠ []) ∧
      ps ≠ [] ∧ (root.join (relativePath names)).pieces = ps ++ names.map Name.text := by
  obtain ⟨t, hjoin, hend⟩ := text_join_relativePath hne hroot
  have hpieces : (root.join (relativePath names)).pieces =
      Text.pieces '/' t ++ names.map Name.text := by
    rw [Path.pieces, hjoin, Text.pieces_append_sep]
    exact congrArg _ (pieces_relativePath hne)
  obtain ht | ht := hend
  · refine ⟨_, [], by rw [Path.pieces, ht, List.append_nil], rfl, fun h => ?_,
      Text.pieces_ne_nil '/' t, hpieces⟩
    exact absurd (ht.trans (Text.eq_nil_of_pieces h)) hroot
  · refine ⟨_, [[]], ?_, rfl, fun _ => by simp, Text.pieces_ne_nil '/' t, hpieces⟩
    rw [Path.pieces, ht, Text.pieces_append_sep]
    rfl

theorem relativeTo?_join_relativePath (hne : names ≠ []) (hroot : root.text ≠ []) :
    (root.join (relativePath names)).relativeTo? root = some (relativePath names) := by
  have hns : ∀ piece ∈ names.map Name.text, Path.isVoid piece = false :=
    List.forall_mem_map.2 fun n _ => n.isVoid_text
  obtain ⟨ps, tail, hpieces, htail, hlone, hps, hlong⟩ := exists_pieces hne hroot
  obtain ⟨first, more, rfl⟩ := List.exists_cons_of_ne_nil hps
  have hsame (qs : List Text) : Path.componentsOf qs = Path.componentsOf (qs ++ tail) := by
    rw [Path.componentsOf_append, htail, List.append_nil]
  by_cases htop : first = []
  · subst htop
    cases more with
    | nil =>
        obtain ⟨piece, rest, rfl⟩ := List.exists_cons_of_ne_nil (hlone rfl)
        obtain ⟨n, names, rfl⟩ := List.exists_cons_of_ne_nil hne
        have hsplit : (root.join (relativePath (n :: names))).split =
            (some .top, [] ++ (n :: names).map Name.text) := Path.split_of_top hlong
        exact Path.relativeTo?_of_split (Path.split_of_top hpieces) hsplit (hsame []) (by simp) hns
    | cons next more =>
        exact Path.relativeTo?_of_split (Path.split_of_top hpieces) (Path.split_of_top hlong)
          (hsame (next :: more)) (by simp) hns
  · by_cases hhere : first = ['.']
    · subst hhere
      exact Path.relativeTo?_of_split (Path.split_of_here hpieces) (Path.split_of_here hlong)
        (hsame more) (by simp) hns
    · have hvoid : Path.isVoid first = false := by simp [Path.isVoid, htop, hhere]
      refine Path.relativeTo?_of_split (Path.split_of_not_isVoid hpieces hvoid)
        (Path.split_of_not_isVoid hlong hvoid) (hsame (first :: more)) (fun _ => ?_) hns
      rw [Path.componentsOf_cons, hvoid, if_neg (by decide)]
      exact List.cons_ne_nil _ _

theorem shownFrom_join_relativePath (hne : names ≠ []) (hroot : root.text ≠ []) :
    (root.join (relativePath names)).shownFrom root = relativePath names := by
  rw [Path.shownFrom, relativeTo?_join_relativePath hne hroot, Option.getD_some]

end Discovery
end SamplerPorts
