import SamplerPorts.Proofs.Glob.Slashes

/-!
How many names a path can have that a glob without trees matches. A piece of the glob's text that
can be a name is a step. Every lexeme that can take a slash of a path of names stands for a step of
its own, if each class that takes slashes names the slash: the step is the piece behind the slash
that is written, which for a class is the one that the class ends in (`crossings_scan_le`). So the
path has no more names than the glob has steps (`count_slash_lt_of_isMatch`).
-/

namespace SamplerPorts.Glob

theorem isStep_of_mem {c : Char} {piece : Text} (hc : c ≠ '.') (h : c ∈ piece) :
    isStep piece = true := by
  refine isStep_iff.2 ⟨?_, ?_, ?_⟩ <;> rintro rfl <;> simp [hc] at h

theorem isStep_cons {c : Char} {piece : Text} (h : isStep piece = true) :
    isStep (c :: piece) = true := by
  obtain ⟨hnil, hdot, -⟩ := isStep_iff.1 h
  exact isStep_iff.2 ⟨by simp, by simp [hnil], by simp [hdot]⟩

/-- The text up to its first slash. -/
def firstPiece (t : Text) : Text := (Text.pieces '/' t).headD []

/-- How many pieces behind the first slash can be names. -/
def stepsBehind (t : Text) : Nat := (Text.pieces '/' t).tail.countP isStep

/-- How many steps are left for lexemes. The first piece is one of them if the class that it stands
in has named a slash. -/
def stepsLeft (named : Bool) (t : Text) : Nat :=
  (if named && isStep (firstPiece t) then 1 else 0) + stepsBehind t

theorem firstPiece_slash (t : Text) : firstPiece ('/' :: t) = [] := by
  simp [firstPiece, Text.pieces]

theorem stepsBehind_slash (t : Text) : stepsBehind ('/' :: t) = stepsLeft true t := by
  rw [stepsLeft, stepsBehind, stepsBehind, firstPiece, Text.pieces, if_pos rfl, List.tail_cons]
  cases h : Text.pieces '/' t with
  | nil => exact absurd h (Text.pieces_ne_nil '/' t)
  | cons piece more =>
      rw [List.countP_cons, Nat.add_comm]
      rfl

section
variable {c : Char} (hc : c ≠ '/') (t : Text)
include hc

theorem firstPiece_cons : firstPiece (c :: t) = c :: firstPiece t := by
  rw [firstPiece, firstPiece, Text.pieces, if_neg hc]
  cases Text.pieces '/' t <;> rfl

theorem stepsBehind_cons : stepsBehind (c :: t) = stepsBehind t := by
  rw [stepsBehind, stepsBehind, Text.pieces, if_neg hc]
  cases Text.pieces '/' t <;> rfl

end

theorem stepsLeft_false (t : Text) : stepsLeft false t = stepsBehind t := by simp [stepsLeft]

theorem stepsLeft_slash (named : Bool) {t : Text} (h : isStep (firstPiece t) = true) :
    1 + stepsLeft false t ≤ stepsLeft named ('/' :: t) := by
  rw [stepsLeft_false, stepsLeft.eq_1 named, stepsBehind_slash, stepsLeft, h]
  exact Nat.le_add_left ..

theorem stepsLeft_le_true (named : Bool) (t : Text) : stepsLeft named t ≤ stepsLeft true t := by
  cases named with
  | false => simp [stepsLeft]
  | true => exact Nat.le_refl _

/-- A character that is read leaves no more steps than there were. A slash that a class names is
exchanged for the piece behind it. -/
theorem stepsLeft_le_cons {named named' : Bool} {c : Char} (h : named' = true → named = true ∨ c = '/')
    (t : Text) : stepsLeft named' t ≤ stepsLeft named (c :: t) := by
  by_cases hc : c = '/'
  · subst hc
    have hslash := stepsBehind_slash t
    have := stepsLeft_le_true named' t
    rw [stepsLeft.eq_1 named]
    omega
  · rw [stepsLeft, stepsLeft, stepsBehind_cons hc, firstPiece_cons hc]
    have hnamed (hn : named' = true) : named = true := (h hn).resolve_right hc
    refine Nat.add_le_add_right ?_ _
    by_cases hn : (named' && isStep (firstPiece t)) = true
    · obtain ⟨hnamed', hstep⟩ := Bool.and_eq_true_iff.1 hn
      rw [if_pos hn, hnamed hnamed', isStep_cons hstep]
      exact Nat.le_refl _
    · rw [if_neg hn]
      exact Nat.zero_le _

/-- The piece in which a class ends is a step, for its closing bracket is in it. -/
theorem stepsLeft_bracket (t : Text) : stepsLeft true (']' :: t) = 1 + stepsLeft false t := by
  have hstep : isStep (']' :: firstPiece t) = true :=
    isStep_of_mem (by decide) (List.mem_cons_self ..)
  rw [stepsLeft, stepsLeft_false, firstPiece_cons (by decide), stepsBehind_cons (by decide), hstep]
  rfl

/-- Whether a slash is one of the bounds of the ranges. -/
def namesSlash (ranges : List (Char × Char)) : Bool :=
  ranges.any fun (first, last) => first == '/' || last == '/'

/-- A class takes a slash only if it names one. -/
def Lexeme.showsSlash : Lexeme → Bool
  | oneOf negated ranges => !(oneOf negated ranges).takesSlash || namesSlash ranges
  | _ => true

/-- Whether a class is being read that has named a slash. -/
def Position.hasNamed : Position → Bool
  | inClass cls => namesSlash cls.ranges
  | _ => false

theorem namesSlash_of_add {cls cls' : Class} {c : Char} (h : cls.add c = .ok cls')
    (hnamed : namesSlash cls'.ranges = true) : namesSlash cls.ranges = true ∨ c = '/' := by
  rw [Class.add] at h
  split at h
  · next first last more hopen hranges =>
    split at h
    · cases h
    · cases h
      simp only [namesSlash, hranges, List.any_cons, Bool.or_eq_true, beq_iff_eq] at hnamed ⊢
      obtain (hfirst | hc) | hmore := hnamed
      · exact .inl (.inl (.inl hfirst))
      · exact .inr hc
      · exact .inl (.inr hmore)
  · cases h
    rw [namesSlash, List.any_cons, Bool.or_eq_true] at hnamed
    exact hnamed.symm.imp_right (by simp)

theorem namesSlash_of_close {cls : Class} (hshow : cls.close.showsSlash = true)
    (htakes : cls.close.takesSlash = true) : namesSlash cls.ranges = true := by
  rw [Class.close] at hshow htakes
  rw [Lexeme.showsSlash, htakes, Bool.not_true, Bool.false_or, namesSlash, List.any_reverse] at hshow
  split at hshow
  · exact hshow
  · exact hshow

namespace Lexeme

/-- What a character does where a scan stands. -/
inductive Scans (pos : Position) (c : Char) (rest : Text) : Prop
  | written {l : Lexeme} (eq : scan pos (c :: rest) = l :: scan .outside rest)
      (reads : pos = .outside ∧ l = ofChar c ∨ l = escaped c)
  | closes {cls : Class} (place : pos = .inClass cls) (bracket : c = ']')
      (eq : scan pos (c :: rest) = cls.close :: scan .outside rest)
  | goesOn (next : Position) (inside : next ≠ .outside)
      (eq : scan pos (c :: rest) = scan next rest)
      (named : next.hasNamed = true → pos.hasNamed = true ∨ c = '/')
  | fails {e : Error} (eq : scan pos (c :: rest) = [bad e])

theorem scans (pos : Position) (c : Char) (rest : Text) : Scans pos c rest := by
  have first (negated : Bool) (h : (Position.inClass ⟨negated, [(c, c)], false⟩).hasNamed = true) :
      c = '/' := by simpa [Position.hasNamed, namesSlash] using h
  cases pos with
  | outside =>
      by_cases hclass : c = '['
      · exact .goesOn .atClass nofun (by rw [scan, if_pos hclass]) (nomatch ·)
      · by_cases hbackslash : c = '\\'
        · exact .goesOn .behindBackslash nofun
            (by rw [scan, if_neg hclass, if_pos hbackslash]) (nomatch ·)
        · exact .written (by rw [scan, if_neg hclass, if_neg hbackslash]) (.inl ⟨rfl, rfl⟩)
  | behindBackslash => exact .written rfl (.inr rfl)
  | atClass =>
      by_cases hsign : c = '!' ∨ c = '^'
      · exact .goesOn .atNegated nofun (by rw [scan, if_pos hsign]) (nomatch ·)
      · exact .goesOn (.inClass ⟨false, [(c, c)], false⟩) nofun (by rw [scan, if_neg hsign])
          fun h => .inr (first false h)
  | atNegated =>
      exact .goesOn (.inClass ⟨true, [(c, c)], false⟩) nofun rfl fun h => .inr (first true h)
  | inClass cls =>
      by_cases hbracket : c = ']'
      · exact .closes rfl hbracket (by rw [scan, if_pos hbracket])
      · by_cases hdash : c = '-' ∧ (!cls.isOpen) = true
        · exact .goesOn (.inClass { cls with isOpen := true }) nofun
            (by rw [scan, if_neg hbracket, if_pos hdash]) .inl
        · cases hadd : cls.add c with
          | ok cls' =>
              exact .goesOn (.inClass cls') nofun
                (by rw [scan, if_neg hbracket, if_neg hdash, hadd]) (namesSlash_of_add hadd)
          | error e => exact .fails (by rw [scan, if_neg hbracket, if_neg hdash, hadd])

/-- Dots up to the next slash are written without any sign. -/
theorem pieceAhead?_scan {t : Text} (h : ∀ c ∈ firstPiece t, c = '.') :
    pieceAhead? (scan .outside t) = some (firstPiece t) := by
  induction t with
  | nil => rfl
  | cons c t ih =>
      by_cases hc : c = '/'
      · subst hc
        rw [firstPiece_slash]
        rfl
      · rw [firstPiece_cons hc, List.forall_mem_cons] at h
        obtain ⟨rfl, h⟩ := h
        rw [firstPiece_cons hc]
        change (pieceAhead? (scan .outside t)).map ('.' :: ·) = _
        rw [ih h]
        rfl

/-- A slash that is written can be taken only if a step is behind it. -/
theorem isStep_of_pieceAhead? {t : Text} (h : (pieceAhead? (scan .outside t)).all isStep = true) :
    isStep (firstPiece t) = true := by
  by_cases hdots : ∀ c ∈ firstPiece t, c = '.'
  · rw [pieceAhead?_scan hdots] at h
    exact h
  · simp only [Classical.not_forall] at hdots
    obtain ⟨c, hmem, hc⟩ := hdots
    exact isStep_of_mem hc hmem

/-- A sign takes no slash. -/
theorem ofChar_eq_plain {c : Char} (h : (ofChar c).takesSlash = true) : ofChar c = plain c := by
  unfold ofChar at h ⊢
  split at h
  case h_6 => rfl
  all_goals cases h

theorem of_crosses {l : Lexeme} {c : Char} (hl : l = ofChar c ∨ l = escaped c) {t : Text}
    (h : l.crosses (scan .outside t) = true) : c = '/' ∧ isStep (firstPiece t) = true := by
  have htakes : l.takesSlash = true := (Bool.and_eq_true_iff.1 h).1
  obtain rfl | rfl : l = plain c ∨ l = escaped c := by
    refine hl.imp_left ?_
    rintro rfl
    exact ofChar_eq_plain htakes
  all_goals
    rw [crosses, Bool.and_eq_true] at h
    exact ⟨by simpa [takesSlash] using htakes, isStep_of_pieceAhead? h.2⟩

theorem crossings_cons_le {l : Lexeme} {ls : List Lexeme} {left before : Nat}
    (hrest : crossings ls ≤ left) (hle : left ≤ before)
    (hcrosses : l.crosses ls = true → 1 + left ≤ before) : crossings (l :: ls) ≤ before := by
  rw [crossings]
  split
  · next h => exact Nat.le_trans (Nat.add_le_add_left hrest _) (hcrosses h)
  · omega

/-- The lexemes that can take a slash of a path of names are no more than the steps that are left. -/
theorem crossings_scan_le (pos : Position) (t : Text)
    (hshow : ∀ l ∈ scan pos t, l.showsSlash = true) :
    crossings (scan pos t) ≤ stepsLeft pos.hasNamed t := by
  induction t generalizing pos with
  | nil => cases pos <;> exact Nat.zero_le _
  | cons c rest ih =>
      cases scans pos c rest with
      | @written l eq reads =>
          rw [eq] at hshow ⊢
          have hrest : crossings (scan .outside rest) ≤ stepsLeft false rest :=
            ih .outside (List.forall_mem_cons.1 hshow).2
          refine crossings_cons_le hrest (stepsLeft_le_cons (by simp) rest) fun hcrosses => ?_
          obtain ⟨rfl, hstep⟩ := of_crosses (reads.imp_left And.right) hcrosses
          exact stepsLeft_slash pos.hasNamed hstep
      | @closes cls hpos bracket eq =>
          obtain rfl := bracket
          obtain rfl := hpos
          rw [eq] at hshow ⊢
          obtain ⟨hclose, hshow⟩ := List.forall_mem_cons.1 hshow
          have hrest : crossings (scan .outside rest) ≤ stepsLeft false rest := ih .outside hshow
          refine crossings_cons_le hrest (stepsLeft_le_cons (by simp) rest) fun hcrosses => ?_
          have hnamed := namesSlash_of_close hclose (Bool.and_eq_true_iff.1 hcrosses).1
          rw [Position.hasNamed, hnamed]
          exact Nat.le_of_eq (stepsLeft_bracket rest).symm
      | goesOn next inside eq named =>
          rw [eq] at hshow ⊢
          exact Nat.le_trans (ih _ hshow) (stepsLeft_le_cons named rest)
      | fails eq =>
          rw [eq]
          exact Nat.zero_le _

/-- Only an asterisk outside the classes is read as one. -/
theorem eq_cons_of_scan {pos : Position} {t : Text} {ls : List Lexeme}
    (h : scan pos t = asterisk :: ls) : pos = .outside ∧ ∃ rest, t = '*' :: rest := by
  induction t generalizing pos with
  | nil => cases pos <;> cases h
  | cons c rest ih =>
      cases scans pos c rest with
      | @written l eq reads =>
          obtain ⟨rfl, -⟩ := List.cons.inj (eq.symm.trans h)
          obtain ⟨hpos, hc⟩ | hescaped := reads
          · unfold ofChar at hc
            split at hc <;> cases hc
            exact ⟨hpos, rest, rfl⟩
          · cases hescaped
      | closes _ _ eq => cases (List.cons.inj (eq.symm.trans h)).1
      | goesOn next inside eq _ => exact absurd (ih (eq.symm.trans h)).1 inside
      | fails eq => cases eq.symm.trans h

/-- Lexemes hold two asterisks in a row only if the text does. -/
theorem stars_infix_of_scan {pos : Position} {t : Text}
    (h : [asterisk, asterisk] <:+: scan pos t) : ['*', '*'] <:+: t := by
  induction t generalizing pos with
  | nil => cases pos <;> exact absurd h.length_le (by simp [scan])
  | cons c rest ih =>
      cases scans pos c rest with
      | @written l eq reads =>
          rw [eq, List.infix_cons_iff] at h
          obtain ⟨more, hmore⟩ | h := h
          · obtain ⟨hl, hrest⟩ := List.cons.inj hmore
            rw [← hl] at eq
            obtain ⟨-, _, hc⟩ := eq_cons_of_scan eq
            obtain ⟨-, next, rfl⟩ := eq_cons_of_scan hrest.symm
            rw [(List.cons.inj hc).1]
            exact ⟨[], next, rfl⟩
          · exact List.infix_cons (ih h)
      | closes _ _ eq =>
          rw [eq, List.infix_cons_iff] at h
          obtain ⟨more, hmore⟩ | h := h
          · cases (List.cons.inj hmore).1
          · exact List.infix_cons (ih h)
      | goesOn next _ eq _ => exact List.infix_cons (ih (eq ▸ h))
      | fails eq => exact absurd h.length_le (by simp [eq])

end Lexeme

open Lexeme Token

/-- The rule for a tree that is alone does not apply to what lexemes spell. -/
theorem nil_mem_of_isMatch {top : Bool} {ls : List Lexeme} {ts : List Token}
    (h : Spells top ls ts) {path : Bytes} (hmatch : isMatch ts path = true) :
    [] ∈ restsOfAll ts [path] := by
  unfold isMatch at hmatch
  split at hmatch
  · cases h with
    | @one _ l _ _ _ token _ => cases l <;> cases token
  · exact List.contains_iff_mem.1 hmatch

/-- What a glob without trees matches has fewer slashes than the glob has steps. -/
theorem count_slash_lt_of_isMatch {glob : Text} {ts : List Token} (hparse : parse glob = .ok ts)
    (hstars : ¬ ['*', '*'] <:+: glob) (hshow : ∀ l ∈ scan .outside glob, l.showsSlash = true)
    {path : Bytes} (hpath : StepsBehindSlashes (slash :: path)) (hmatch : isMatch ts path = true) :
    path.count slash < (Text.pieces '/' glob).countP isStep := by
  have hspells : Spells true (scan .outside glob) ts :=
    spells_of_parse (fun h => hstars (stars_infix_of_scan h)) hparse
  have hslash : path ∈ rests (literal '/') [slash :: path] := (mem_rests_literal ..).2 rfl
  -- the path and the glob with a slash in front, so that each name is behind a slash
  have hle : (slash :: path).count slash + 0 ≤ crossings (scan .outside ('/' :: glob) ++ []) + 0 :=
    (count_slash_le (.one rfl hspells)
      ((mem_restsOfAll_cons ..).2 ⟨path, hslash, nil_mem_of_isMatch hspells hmatch⟩) hpath
      (.inl ⟨rfl, rfl⟩)).2
  have hsteps : crossings (scan .outside ('/' :: glob)) ≤ stepsLeft false ('/' :: glob) :=
    crossings_scan_le .outside ('/' :: glob) (List.forall_mem_cons.2 ⟨rfl, hshow⟩)
  rw [stepsLeft_false, stepsBehind, Text.pieces, if_pos rfl, List.tail_cons] at hsteps
  rw [List.count_cons_self, List.append_nil] at hle
  omega

end SamplerPorts.Glob
