import SamplerPorts.Glob.Parser

/-!
What the lexemes of a glob without trees spell. A group is written as its branches with commas
between them, and it stands for the choice between what the branches spell (`Spells`). The parser
keeps the groups that are still open on a stack, so what it has read is spelled by the lexemes
behind it in the same way, group within group (`Reads`). At the end no group is open and the tokens
are what the whole glob spells (`spells_of_parse`).
-/

namespace SamplerPorts.Glob

/-- The token that a lexeme stands for on its own, wherever it is. -/
def Lexeme.token? : Lexeme → Option Token
  | plain c | escaped c => some (.literal c)
  | question => some .anyOne
  | asterisk => some .star
  | oneOf negated ranges => some (.oneOf negated ranges)
  | openGroup | closeGroup | comma | bad _ => none

/-- The branches of a group with the commas between them, up to the bracket that closes it. -/
def grouped : List (List Lexeme) → List Lexeme
  | [] => [.closeGroup]
  | [branch] => branch ++ [.closeGroup]
  | branch :: next :: more => branch ++ .comma :: grouped (next :: more)

/-- The lexemes spell the tokens, outside all groups if `top` is true and in a branch of a group
otherwise. -/
inductive Spells : (top : Bool) → List Lexeme → List Token → Prop
  | nil {top : Bool} : Spells top [] []
  | one {top : Bool} {l : Lexeme} {t : Token} {ls : List Lexeme} {ts : List Token}
      (token : l.token? = some t) (rest : Spells top ls ts) : Spells top (l :: ls) (t :: ts)
  | comma {ls : List Lexeme} {ts : List Token} (rest : Spells true ls ts) :
      Spells true (.comma :: ls) (.literal ',' :: ts)
  | group {top : Bool} {branches : List (List Lexeme × List Token)} {ls : List Lexeme}
      {ts : List Token} (inside : ∀ b ∈ branches, Spells false b.1 b.2) (rest : Spells top ls ts) :
      Spells top (.openGroup :: (grouped (branches.map Prod.fst) ++ ls))
        (Token.choose (branches.map Prod.snd) :: ts)

/-- The lexemes of the branches of an open group that are finished. -/
def finished (branches : List (List Lexeme)) : List Lexeme :=
  branches.flatMap fun branch => branch ++ [.comma]

theorem grouped_concat (branches : List (List Lexeme)) (last : List Lexeme) :
    grouped (branches ++ [last]) = finished branches ++ last ++ [.closeGroup] := by
  induction branches with
  | nil => rfl
  | cons branch branches ih =>
      obtain ⟨next, more, hmore⟩ : ∃ next more, branches ++ [last] = next :: more :=
        List.exists_cons_of_ne_nil (by simp)
      rw [List.cons_append, hmore, grouped, ← hmore, ih]
      simp [finished]

theorem Spells.append {top : Bool} {ls ls' : List Lexeme} {ts ts' : List Token}
    (h : Spells top ls ts) (h' : Spells top ls' ts') : Spells top (ls ++ ls') (ts ++ ts') := by
  induction h with
  | nil => exact h'
  | one token _ ih => exact .one token (ih h')
  | comma _ ih => exact .comma (ih h')
  | group inside _ _ ih =>
      rw [List.cons_append, List.cons_append, List.append_assoc]
      exact .group inside (ih h')

/-- The lexemes spell what a reading with these open groups and these tokens, the last one first,
has come to. -/
inductive Reads : List OpenGroup → List Token → List Lexeme → Prop
  | top {ts : List Token} {ls : List Lexeme} (spells : Spells true ls ts.reverse) : Reads [] ts ls
  | inside {g : OpenGroup} {groups : List OpenGroup} {ts : List Token} {outer ls : List Lexeme}
      {branches : List (List Lexeme × List Token)} (before : Reads groups g.before outer)
      (each : ∀ b ∈ branches, Spells false b.1 b.2)
      (done : g.branches = (branches.map Prod.snd).reverse) (spells : Spells false ls ts.reverse) :
      Reads (g :: groups) ts
        (outer ++ .openGroup :: (finished (branches.map Prod.fst) ++ ls))

namespace Reads
variable {groups : List OpenGroup} {g : OpenGroup} {ts : List Token} {ls : List Lexeme}

theorem push (h : Reads groups ts ls) {t : Token} {more : List Lexeme}
    (hmore : Spells groups.isEmpty more [t]) : Reads groups (t :: ts) (ls ++ more) := by
  cases h with
  | top spells =>
      refine .top ?_
      rw [List.reverse_cons]
      exact spells.append hmore
  | inside before each done spells =>
      rw [List.append_assoc, List.cons_append, List.append_assoc]
      refine .inside before each done ?_
      rw [List.reverse_cons]
      exact spells.append hmore

theorem one (h : Reads groups ts ls) {l : Lexeme} {t : Token} (hl : l.token? = some t) :
    Reads groups (t :: ts) (ls ++ [l]) := h.push (.one hl .nil)

theorem openGroup (h : Reads groups ts ls) :
    Reads (⟨[], ts⟩ :: groups) [] (ls ++ [.openGroup]) :=
  @inside ⟨[], ts⟩ groups [] ls [] [] h (by simp) rfl .nil

theorem comma (h : Reads (g :: groups) ts ls) :
    Reads ({ g with branches := ts.reverse :: g.branches } :: groups) [] (ls ++ [.comma]) := by
  cases h with
  | @inside _ _ _ outer cur branches before each done spells =>
      have each' : ∀ b ∈ branches ++ [(cur, ts.reverse)], Spells false b.1 b.2 := by
        rw [List.forall_mem_append]
        exact ⟨each, by simpa using spells⟩
      have := @inside { g with branches := ts.reverse :: g.branches } groups [] outer []
        (branches ++ [(cur, ts.reverse)]) before each' (by simp [done]) .nil
      simpa [finished] using this

theorem closeGroup (h : Reads (g :: groups) ts ls) :
    Reads groups (Token.choose (ts.reverse :: g.branches).reverse :: g.before)
      (ls ++ [.closeGroup]) := by
  cases h with
  | @inside _ _ _ outer cur branches before each done spells =>
      have each' : ∀ b ∈ branches ++ [(cur, ts.reverse)], Spells false b.1 b.2 := by
        rw [List.forall_mem_append]
        exact ⟨each, by simpa using spells⟩
      have := before.push (.group each' .nil)
      rw [List.map_append, List.map_append, List.map_singleton, List.map_singleton,
        grouped_concat] at this
      simpa [done] using this

end Reads

/-- Lexemes without two asterisks in a row spell what is read from them. -/
theorem spells_of_parseFrom {r : Reading} {done ls : List Lexeme} {ts : List Token}
    (hr : Reads r.groups r.tokens done) (hstars : ¬ [.asterisk, .asterisk] <:+: ls)
    (h : parseFrom r ls = .ok ts) : Spells true (done ++ ls) ts := by
  have behind {l : Lexeme} {rest : List Lexeme} (hl : ¬ [.asterisk, .asterisk] <:+: l :: rest) :
      ¬ [.asterisk, .asterisk] <:+: rest := fun hrest => hl (List.infix_cons hrest)
  induction r, ls using parseFrom.induct generalizing done with
  | case1 r =>
      rw [parseFrom, Reading.finish] at h
      split at h
      · next hgroups =>
        rw [List.isEmpty_iff.1 hgroups] at hr
        cases hr with
        | top spells =>
            cases h
            rwa [List.append_nil]
      · cases h
  | case2 r e tail => cases h
  | case3 r c rest ih | case4 r c rest ih | case5 r rest ih | case6 r negated ranges rest ih =>
      rw [List.append_cons]
      exact ih (hr.one rfl) (behind hstars) h
  | case7 r rest ih =>
      rw [List.append_cons]
      exact ih hr.openGroup (behind hstars) h
  | case8 r rest ih =>
      rw [parseFrom, Reading.closeGroup] at h
      cases hgroups : r.groups with
      | nil =>
          rw [hgroups] at h
          cases h
      | cons g groups =>
          rw [hgroups] at hr h
          rw [List.append_cons]
          exact ih _ hr.closeGroup (behind hstars) h
  | case9 r rest ih =>
      rw [List.append_cons]
      refine ih ?_ (behind hstars) h
      cases hgroups : r.groups with
      | nil =>
          rw [hgroups] at hr
          rw [Reading.comma, hgroups]
          change Reads r.groups _ _
          rw [hgroups]
          exact hr.push (.comma .nil)
      | cons g groups =>
          rw [hgroups] at hr
          rw [Reading.comma, hgroups]
          exact hr.comma
  | case10 r r' head rest htree ih => exact absurd ⟨[], head :: rest, rfl⟩ hstars
  | case11 r r' snd rest hsnd htree ih => exact absurd ⟨[], rest, rfl⟩ hstars
  | case12 r rest hrest ih =>
      rw [parseFrom.eq_12 _ _ hrest] at h
      rw [List.append_cons]
      exact ih (hr.one rfl) (behind hstars) h

/-- A glob whose lexemes hold no two asterisks in a row is read as what they spell. -/
theorem spells_of_parse {glob : Text} {ts : List Token}
    (hstars : ¬ [.asterisk, .asterisk] <:+: Lexeme.scan .outside glob) (h : parse glob = .ok ts) :
    Spells true (Lexeme.scan .outside glob) ts :=
  spells_of_parseFrom (.top .nil) hstars h

end SamplerPorts.Glob
