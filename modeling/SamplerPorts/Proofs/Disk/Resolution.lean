import SamplerPorts.Disk.Access

/-!
Following a path piece by piece. At each piece the path either ends there or goes on from another
directory with other pieces (`next`), and what is shown of every such step holds of the whole way
(`followInduction`). A path that leads to a file when it is read leads to the same file when it is
written (`resolve_write_of_read`), because only a directory can have slashes behind it.
-/

namespace SamplerPorts.Disk

/-- What one piece of a path comes to. -/
inductive Next where
  | done (r : Resolved)
  | onward (links : Nat) (place : Location) (pieces : List Text)

def next (d : Disk) (purpose : Purpose) (links : Nat) (place : Location) (piece : Text)
    (rest : List Text) : Next :=
  if !d.isDirectory place then .done (.error .notADirectory)
  else
    match Name.ofText? piece with
    | none => .onward links (if piece = ['.', '.'] then place.tail else place) rest
    | some name =>
        if purpose = .write ∧ isSlashes rest then .done (.error .isADirectory)
        else
          match d.find? (name :: place) with
          | none => .done (if rest = [] then .ok (.vacant place name, links) else .error .notFound)
          | some (.link target) =>
              if purpose = .name ∧ rest = [] then .done (.ok (.entry (name :: place), links))
              else
                match links with
                | 0 => .done (.error .tooManyLinks)
                | links + 1 => .onward links (base place target) (target.pieces ++ rest)
          | some _ => .onward links (name :: place) rest

section
variable (d : Disk) (purpose : Purpose)

theorem follow_cons (links : Nat) (place : Location) (piece : Text) (rest : List Text) :
    d.follow purpose links place (piece :: rest) =
      match d.next purpose links place piece rest with
      | .done r => r
      | .onward links place pieces => d.follow purpose links place pieces := by
  rw [follow, next]
  cases d.isDirectory place with
  | false => rfl
  | true =>
      cases Name.ofText? piece with
      | none => rfl
      | some name =>
          by_cases hw : purpose = .write ∧ isSlashes rest
          · simp only [if_pos hw]
            rfl
          · simp only [if_neg hw]
            cases d.find? (name :: place) with
            | none => rfl
            | some e =>
                cases e with
                | directory | file content => rfl
                | link target =>
                    by_cases hp : purpose = .name ∧ rest = []
                    · simp only [if_pos hp]
                      rfl
                    · simp only [if_neg hp]
                      cases links <;> rfl

variable {d purpose} {links l : Nat} {place pl : Location} {piece : Text} {rest ps : List Text}

theorem next_eq_onward (h : d.next purpose links place piece rest = .onward l pl ps) :
    d.isDirectory place = true ∧
      ((Name.ofText? piece = none ∧ l = links ∧
          pl = (if piece = ['.', '.'] then place.tail else place) ∧ ps = rest) ∨
        ∃ name, Name.ofText? piece = some name ∧
          ((∃ target, d.find? (name :: place) = some (.link target) ∧ links = l + 1 ∧
              pl = base place target ∧ ps = target.pieces ++ rest) ∨
            d.find? (name :: place) ≠ none ∧ l = links ∧ pl = name :: place ∧ ps = rest)) := by
  rw [next] at h
  cases hd : d.isDirectory place with
  | false => simp [hd] at h
  | true =>
      refine ⟨rfl, ?_⟩
      cases hn : Name.ofText? piece with
      | none =>
          simp only [hd, hn] at h
          cases h
          exact .inl ⟨rfl, rfl, rfl, rfl⟩
      | some name =>
          refine .inr ⟨name, rfl, ?_⟩
          by_cases hw : purpose = .write ∧ isSlashes rest
          · simp [hd, hn, hw] at h
          · simp only [hd, hn, if_neg hw] at h
            cases hf : d.find? (name :: place) with
            | none => simp [hf] at h
            | some e =>
                cases e with
                | directory | file content =>
                    simp only [hf] at h
                    cases h
                    exact .inr ⟨by simp, rfl, rfl, rfl⟩
                | link target =>
                    by_cases hp : purpose = .name ∧ rest = []
                    · simp [hf, hp] at h
                    · simp only [hf, if_neg hp] at h
                      cases links with
                      | zero => cases h
                      | succ links =>
                          cases h
                          exact .inl ⟨target, rfl, rfl, rfl, rfl⟩

/-- What follows for a path from the ways that its first piece can go holds of every path. -/
theorem followInduction (d : Disk) (purpose : Purpose) {P : Nat → Location → List Text → Prop}
    (nil : ∀ links place, P links place [])
    (cons : ∀ links place piece rest,
      (∀ l pl ps, d.next purpose links place piece rest = .onward l pl ps → P l pl ps) →
        P links place (piece :: rest)) :
    (links : Nat) → (place : Location) → (pieces : List Text) → P links place pieces
  | links, place, [] => nil links place
  | links, place, piece :: rest => by
      apply cons
      intro l pl ps h
      exact followInduction d purpose nil cons l pl ps
termination_by links _ pieces => (links, pieces.length)
decreasing_by
  obtain ⟨-, ⟨-, rfl, -, rfl⟩ | ⟨name, -, ⟨target, -, rfl, -, -⟩ | ⟨-, rfl, -, rfl⟩⟩⟩ :=
    next_eq_onward h
  · exact Prod.Lex.right _ (by simp)
  · exact Prod.Lex.left _ _ (by omega)
  · exact Prod.Lex.right _ (by simp)

/-- Only the name of a link itself ends at an entry with a piece that counts. -/
theorem purpose_of_next_eq_done {loc : Location}
    (h : d.next purpose links place piece rest = .done (.ok (.entry loc, l))) :
    purpose = .name := by
  rw [next] at h
  cases hd : d.isDirectory place with
  | false => simp [hd] at h
  | true =>
      cases hn : Name.ofText? piece with
      | none => simp [hd, hn] at h
      | some name =>
          by_cases hw : purpose = .write ∧ isSlashes rest
          · simp [hd, hn, hw] at h
          · simp only [hd, hn, if_neg hw] at h
            cases hf : d.find? (name :: place) with
            | none => by_cases hr : rest = [] <;> simp [hf, hr] at h
            | some e =>
                cases e with
                | directory | file content => simp [hf] at h
                | link target =>
                    by_cases hp : purpose = .name ∧ rest = []
                    · exact hp.1
                    · simp only [hf, if_neg hp] at h
                      cases links <;> simp at h

/-- Without slashes behind a name it does not matter whether a file is read or written. -/
theorem next_write_of_not_isSlashes (h : isSlashes rest = false) :
    d.next .write links place piece rest = d.next .read links place piece rest := by
  simp [next, h]

theorem isDirectory_of_follow {pieces : List Text} {loc : Location}
    (hlast : pieces.getLast? = some [])
    (h : d.follow .read links place pieces = .ok (.entry loc, l)) : d.isDirectory loc = true := by
  induction links, place, pieces using followInduction d .read with
  | nil => cases hlast
  | cons links place piece rest ih =>
      rw [follow_cons] at h
      cases hnext : d.next .read links place piece rest with
      | done r =>
          rw [hnext] at h
          cases show r = _ from h
          cases purpose_of_next_eq_done hnext
      | onward l pl ps =>
          rw [hnext] at h
          change d.follow .read l pl ps = _ at h
          obtain ⟨hd, hcase⟩ := next_eq_onward hnext
          obtain rfl | ⟨front, last, rfl⟩ := List.eq_nil_or_concat rest
          · -- the path ends in the slash, so the directory that it stands in is the answer
            obtain rfl : piece = [] := by simpa using hlast
            obtain ⟨-, rfl, rfl, rfl⟩ | ⟨name, hname, -⟩ := hcase
            · rw [follow] at h
              cases h
              exact hd
            · simp [Name.ofText?] at hname
          · rw [List.concat_eq_append, ← List.cons_append, List.getLast?_concat] at hlast
            cases hlast
            refine ih l pl ps hnext ?_ h
            obtain ⟨-, -, -, rfl⟩ | ⟨name, -, ⟨target, -, -, -, rfl⟩ | ⟨-, -, -, rfl⟩⟩ := hcase
            all_goals simp

theorem follow_write_of_read {pieces : List Text} {loc : Location} {content : Bytes}
    (h : d.follow .read links place pieces = .ok (.entry loc, l))
    (hfile : d.find? loc = some (.file content)) :
    d.follow .write links place pieces = .ok (.entry loc, l) := by
  induction links, place, pieces using followInduction d .read with
  | nil => rwa [follow] at h ⊢
  | cons links place piece rest ih =>
      cases hs : isSlashes rest with
      | true =>
          have hlast : (piece :: rest).getLast? = some [] := by
            obtain rfl | ⟨front, last, rfl⟩ := List.eq_nil_or_concat rest
            · cases hs
            · have hempty : last = [] := by simp_all [isSlashes]
              rw [List.concat_eq_append, ← List.cons_append, List.getLast?_concat, hempty]
          have := isDirectory_of_follow hlast h
          simp [isDirectory, hfile] at this
      | false =>
          rw [follow_cons] at h ⊢
          rw [next_write_of_not_isSlashes hs]
          cases hnext : d.next .read links place piece rest with
          | done r => rwa [hnext] at h
          | onward l pl ps =>
              rw [hnext] at h
              exact ih l pl ps hnext h

theorem resolve_write_of_read {p : Path} {loc : Location} {content : Bytes}
    (h : d.resolve .read p = .ok (.entry loc, l)) (hfile : d.find? loc = some (.file content)) :
    d.resolve .write p = .ok (.entry loc, l) := by
  rw [resolve] at h ⊢
  split at h
  · cases h
  · next hne =>
    split at h
    · cases h
    · next hnul =>
      rw [if_neg hne, if_neg hnul]
      exact follow_write_of_read h hfile

theorem follow_of_not_isDirectory (h : d.isDirectory place = false) (hps : ps ≠ []) :
    d.follow purpose links place ps = .error .notADirectory := by
  cases ps with
  | nil => exact absurd rfl hps
  | cons piece rest =>
      rw [follow_cons, next, h]
      rfl

theorem follow_dot (h : d.isDirectory place = true) :
    d.follow purpose links place (['.'] :: rest) = d.follow purpose links place rest := by
  rw [follow_cons, next, h]
  rfl

theorem resolve_here (h : d.isDirectory d.current = true) :
    d.resolve .read (.ofString ".") = .ok (.entry d.current, maxLinks) :=
  (follow_dot h).trans (follow.eq_1 ..)

/-- Where the current directory is not there, no relative path leads anywhere. -/
theorem resolve_of_not_isDirectory {p : Path} (hrel : p.isAbsolute = false)
    (h : d.isDirectory d.current = false) : ∃ e, d.resolve purpose p = .error e := by
  rw [resolve, base, hrel]
  by_cases hne : p.text = []
  · exact ⟨_, if_pos hne⟩
  · rw [if_neg hne]
    by_cases hnul : '\x00' ∈ p.text
    · exact ⟨_, if_pos hnul⟩
    · rw [if_neg hnul]
      exact ⟨_, follow_of_not_isDirectory h (Text.pieces_ne_nil '/' p.text)⟩

/-- A relative path leads to the same place if it is seen from a dot. -/
theorem resolve_join_here {p : Path} (hne : p.text ≠ []) (hrel : p.isAbsolute = false) :
    d.resolve purpose ((Path.ofString ".").join p) = d.resolve purpose p := by
  have hjoin : (Path.ofString ".").join p = ⟨'.' :: '/' :: p.text⟩ := by
    rw [Path.join, hrel]
    rfl
  have hpieces : (Path.mk ('.' :: '/' :: p.text)).pieces = ['.'] :: p.pieces := rfl
  have hbase : base d.current ⟨'.' :: '/' :: p.text⟩ = base d.current p := by
    rw [base, base, hrel]
    rfl
  have hcurrent : base d.current p = d.current := by
    rw [base, hrel]
    rfl
  have hnul : '\x00' ∈ '.' :: '/' :: p.text ↔ '\x00' ∈ p.text := by simp
  have hfollow : d.follow purpose maxLinks d.current (['.'] :: p.pieces) =
      d.follow purpose maxLinks d.current p.pieces := by
    cases hd : d.isDirectory d.current with
    | true => exact follow_dot hd
    | false =>
        rw [follow_of_not_isDirectory hd (by simp)]
        exact (follow_of_not_isDirectory hd (Text.pieces_ne_nil '/' p.text)).symm
  rw [hjoin, resolve, resolve, if_neg (by simp), if_neg hne, hpieces, hbase, hcurrent, hfollow]
  simp only [hnul]

end
end SamplerPorts.Disk
