import SamplerPorts.Proofs.Glob.Matching
import SamplerPorts.Proofs.Glob.Spelling
import SamplerPorts.Proofs.Text.Encoding

/-!
How many slashes a glob without trees can take. Each slash of a path is taken by a lexeme of its own,
and a slash that is written in the glob takes one only if a name can come behind it: in a path of
names no slash is followed by another one, by one or two dots alone, or by nothing. So a path has no
more slashes than the glob has lexemes that let it go on to a name (`count_slash_le`).
-/

namespace SamplerPorts.Glob

/-- Whether a piece of a path, of which slashes are no part, can be a name. -/
def isStep (piece : Text) : Bool := piece != [] && piece != ['.'] && piece != ['.', '.']

theorem isStep_iff {piece : Text} :
    isStep piece = true ↔ piece ≠ [] ∧ piece ≠ ['.'] ∧ piece ≠ ['.', '.'] := by
  simp [isStep, and_assoc]

namespace Lexeme

/-- Whether the lexeme takes the byte of a slash. -/
def takesSlash : Lexeme → Bool
  | plain c | escaped c => c == '/'
  | oneOf negated ranges => ranges.any (rangeHolds slash) != negated
  | _ => false

/-- The characters up to the next slash or the end, if they are written without any sign. -/
def pieceAhead? : List Lexeme → Option Text
  | [] => some []
  | plain c :: ls => if c = '/' then some [] else (pieceAhead? ls).map (c :: ·)
  | _ => none

/-- Whether the lexeme in front of the others can take a slash of a path of names. Behind a class
every piece holds its closing bracket, so it can be a name. -/
def crosses (l : Lexeme) (ls : List Lexeme) : Bool :=
  l.takesSlash &&
    match l with
    | plain _ | escaped _ => (pieceAhead? ls).all isStep
    | _ => true

/-- How many of the lexemes can take a slash of a path of names. -/
def crossings : List Lexeme → Nat
  | [] => 0
  | l :: ls => (if l.crosses ls then 1 else 0) + crossings ls

theorem crossings_le_of_suffix {ls ms : List Lexeme} (h : ls <:+ ms) :
    crossings ls ≤ crossings ms := by
  obtain ⟨before, rfl⟩ := h
  induction before with
  | nil => exact Nat.le_refl _
  | cons l before ih => exact Nat.le_trans ih (Nat.le_add_left ..)

/-- The lexemes, and the bytes that are left for them, are behind a branch: the glob is at its end
with nothing left, or a comma or a closing bracket comes next. -/
def EndsBranch (ls : List Lexeme) (left : Bytes) : Prop :=
  (ls = [] ∧ left = []) ∨ ∃ more, ls = comma :: more ∨ ls = closeGroup :: more

end Lexeme

open Lexeme Token

/-- Wherever a slash stands in the bytes, the piece behind it can be a name. -/
def StepsBehindSlashes (s : Bytes) : Prop :=
  ∀ before piece rest, s = before ++ slash :: (Text.encode piece ++ rest) →
    rest = [] ∨ (∃ more, rest = slash :: more) → isStep piece = true

theorem StepsBehindSlashes.of_append {m s : Bytes} (h : StepsBehindSlashes (m ++ s)) :
    StepsBehindSlashes s := by
  rintro before piece rest rfl hrest
  exact h (m ++ before) piece rest (by rw [List.append_assoc]) hrest

theorem count_slash_encodeChar {c : Char} (h : c ≠ '/') :
    (String.utf8EncodeChar c).count slash = 0 := by
  rw [List.count_eq_zero]
  intro hmem
  exact h (Text.eq_of_mem_encodeChar (a := '/') (by decide) hmem)

/-- A token that takes one byte of some kind leaves what is behind the first byte. -/
theorem mem_rests_byte {t : Token} {takes : UInt8 → Prop} {x : Bytes} (hnil : x ∉ rests t [[]])
    (hcons : ∀ b s, x ∈ rests t [b :: s] ↔ takes b ∧ x = s) (s : Bytes) :
    x ∈ rests t [s] ↔ ∃ b, s = b :: x ∧ takes b := by
  cases s with
  | nil => simp [hnil]
  | cons b s =>
      rw [hcons]
      constructor
      · rintro ⟨hb, rfl⟩
        exact ⟨b, rfl, hb⟩
      · rintro ⟨_, hs, hb⟩
        obtain ⟨rfl, rfl⟩ := List.cons.inj hs
        exact ⟨hb, rfl⟩

theorem mem_rests_anyOne (s x : Bytes) :
    x ∈ rests .anyOne [s] ↔ ∃ b, s = b :: x ∧ b ≠ slash :=
  mem_rests_byte (by simp [rests, restsOf]) (by simp [rests, restsOf, List.mem_eraseDups]) s

theorem mem_rests_oneOf (negated : Bool) (ranges : List (Char × Char)) (s x : Bytes) :
    x ∈ rests (.oneOf negated ranges) [s] ↔
      ∃ b, s = b :: x ∧ (ranges.any (rangeHolds b) != negated) = true :=
  mem_rests_byte (by simp [rests, restsOf])
    (by simp [rests, restsOf, List.mem_eraseDups, -bne_iff_ne]) s

/-- What a single lexeme takes has a slash only if the lexeme takes slashes, and then it is the
slash alone. -/
theorem exists_taken {l : Lexeme} {t : Token} (ht : l.token? = some t) {s r : Bytes}
    (h : r ∈ rests t [s]) :
    ∃ m, s = m ++ r ∧ (m.count slash = 0 ∨ m = [slash] ∧ l.takesSlash = true) := by
  cases l with
  | plain c | escaped c =>
      obtain rfl := Option.some.inj ht
      refine ⟨_, (mem_rests_literal c s r).1 h, ?_⟩
      by_cases hc : c = '/'
      · subst hc
        exact .inr ⟨by decide, by simp [takesSlash]⟩
      · exact .inl (count_slash_encodeChar hc)
  | question =>
      obtain rfl := Option.some.inj ht
      obtain ⟨b, rfl, hb⟩ := (mem_rests_anyOne s r).1 h
      exact ⟨[b], rfl, .inl (List.count_eq_zero.2 (by simpa using Ne.symm hb))⟩
  | asterisk =>
      obtain rfl := Option.some.inj ht
      obtain ⟨m, hm, rfl⟩ := (mem_rests_star s r).1 h
      exact ⟨m, rfl, .inl (List.count_eq_zero.2 hm)⟩
  | oneOf negated ranges =>
      obtain rfl := Option.some.inj ht
      obtain ⟨b, rfl, hb⟩ := (mem_rests_oneOf negated ranges s r).1 h
      refine ⟨[b], rfl, ?_⟩
      by_cases hslash : b = slash
      · subst hslash
        exact .inr ⟨rfl, hb⟩
      · exact .inl (List.count_eq_zero.2 (by simpa using Ne.symm hslash))
  | openGroup | closeGroup | comma | bad e => cases ht

/-- Characters that are written without a sign are taken one by one, so the piece that they make is
the next one of the path. -/
theorem exists_piece {top : Bool} {ls next : List Lexeme} {ts : List Token} (h : Spells top ls ts)
    {s x : Bytes} (hx : x ∈ restsOfAll ts [s]) (hnext : EndsBranch next x) {piece : Text}
    (hpiece : pieceAhead? (ls ++ next) = some piece) :
    ∃ rest, s = Text.encode piece ++ rest ∧ (rest = [] ∨ ∃ more, rest = slash :: more) := by
  induction h generalizing s piece with
  | nil =>
      obtain rfl : x = s := by simpa [restsOfAll] using hx
      obtain ⟨rfl, rfl⟩ | ⟨more, rfl | rfl⟩ := hnext
      · obtain rfl : [] = piece := Option.some.inj hpiece
        exact ⟨[], rfl, .inl rfl⟩
      · cases hpiece
      · cases hpiece
  | @one _ l t ls ts token rest ih =>
      obtain ⟨r, hr, hrest⟩ := (mem_restsOfAll_cons ..).1 hx
      cases l with
      | plain c =>
          obtain rfl := Option.some.inj token
          have hs := (mem_rests_literal c s r).1 hr
          rw [List.cons_append, pieceAhead?] at hpiece
          split at hpiece
          · next hc =>
            obtain rfl : [] = piece := Option.some.inj hpiece
            exact ⟨s, rfl, .inr ⟨r, by rw [hs, hc]; rfl⟩⟩
          · obtain ⟨more, hmore, rfl⟩ := Option.map_eq_some_iff.1 hpiece
            obtain ⟨left, rfl, hleft⟩ := ih hrest hmore
            exact ⟨left, by rw [hs, Text.encode_cons, List.append_assoc], hleft⟩
      | escaped _ | question | asterisk | openGroup | closeGroup | comma | oneOf _ _ | bad _ =>
          cases hpiece
  | comma | group => cases hpiece

/-- A branch of a group stands among the lexemes of the group, in front of a comma or of the closing
bracket. -/
theorem exists_branchEnd {branches : List (List Lexeme)} {branch : List Lexeme}
    (h : branch ∈ branches) :
    ∃ l more, (l = Lexeme.comma ∨ l = .closeGroup) ∧ branch ++ l :: more <:+ grouped branches := by
  induction branches with
  | nil => cases h
  | cons first branches ih =>
      cases branches with
      | nil =>
          obtain rfl := List.mem_singleton.1 h
          exact ⟨_, [], .inr rfl, List.suffix_rfl⟩
      | cons second more =>
          obtain rfl | h := List.mem_cons.1 h
          · exact ⟨_, _, .inl rfl, List.suffix_rfl⟩
          · obtain ⟨l, rest, hl, hsuffix⟩ := ih h
            exact ⟨l, rest, hl, hsuffix.trans ⟨first ++ [.comma], by simp [grouped]⟩⟩

theorem mem_restsOfAny_singleton {branches : List (List Token)} {s x : Bytes} :
    x ∈ restsOfAny branches [s] ↔ ∃ b ∈ branches, x ∈ restsOfAll b [s] := by
  induction branches with
  | nil => simp [restsOfAny]
  | cons b branches ih => simp [restsOfAny, ih]

theorem exists_branch_of_mem_rests {branches : List (List Token)} {s x : Bytes}
    (h : x ∈ rests (choose branches) [s]) : x = s ∨ ∃ b ∈ branches, x ∈ restsOfAll b [s] := by
  rw [choose] at h
  cases hfilter : branches.filter fun branch => !branch.all isVoid with
  | nil =>
      rw [hfilter, rests] at h
      exact .inl (List.mem_singleton.1 h)
  | cons branch more =>
      rw [hfilter, rests, List.mem_eraseDups, mem_restsOfAny_singleton] at h
      obtain ⟨b, hb, hx⟩ := h
      rw [← hfilter] at hb
      exact .inr ⟨b, (List.mem_filter.1 hb).1, hx⟩

/-- A lexeme that takes the slash in front of a name is one that can. -/
theorem crosses_of_takesSlash {l : Lexeme} (htakes : l.takesSlash = true) {top : Bool}
    {ls next : List Lexeme} {ts : List Token} (h : Spells top ls ts) {r x : Bytes}
    (hx : x ∈ restsOfAll ts [r]) (hnext : EndsBranch next x)
    (hs : StepsBehindSlashes (slash :: r)) : l.crosses (ls ++ next) = true := by
  have hahead : (pieceAhead? (ls ++ next)).all isStep = true := by
    rw [Option.all_eq_true]
    intro piece hpiece
    obtain ⟨left, rfl, hleft⟩ := exists_piece h hx hnext hpiece
    exact hs [] piece left rfl hleft
  cases l with
  | plain c | escaped c => rw [crosses, htakes, hahead, Bool.and_self]
  | oneOf negated ranges => simpa [crosses] using htakes
  | question | asterisk | openGroup | closeGroup | comma | bad e => cases htakes

/-- The slashes that are taken are no more than the lexemes that can take one. -/
theorem count_slash_le {top : Bool} {ls : List Lexeme} {ts : List Token} (h : Spells top ls ts)
    {s x : Bytes} (hx : x ∈ restsOfAll ts [s]) (hs : StepsBehindSlashes s) {next : List Lexeme}
    (hnext : EndsBranch next x) :
    x <:+ s ∧ s.count slash + crossings next ≤ crossings (ls ++ next) + x.count slash := by
  induction h generalizing s x next with
  | nil =>
      obtain rfl : x = s := by simpa [restsOfAll] using hx
      exact ⟨List.suffix_rfl, Nat.le_of_eq (Nat.add_comm ..)⟩
  | @one _ l t ls ts token rest ih =>
      obtain ⟨r, hr, hrest⟩ := (mem_restsOfAll_cons ..).1 hx
      obtain ⟨m, rfl, hm⟩ := exists_taken token hr
      obtain ⟨hsuffix, hle⟩ := ih hrest hs.of_append hnext
      refine ⟨hsuffix.trans (List.suffix_append ..), ?_⟩
      rw [List.count_append, List.cons_append, crossings]
      obtain hm | ⟨rfl, htakes⟩ := hm
      · omega
      · rw [if_pos (crosses_of_takesSlash htakes rest hrest hnext hs), List.count_singleton_self]
        omega
  | @comma ls ts rest ih =>
      obtain ⟨r, hr, hrest⟩ := (mem_restsOfAll_cons ..).1 hx
      obtain rfl := (mem_rests_literal ',' s r).1 hr
      obtain ⟨hsuffix, hle⟩ := ih hrest hs.of_append hnext
      have hcomma : (String.utf8EncodeChar ',').count slash = 0 := by decide
      refine ⟨hsuffix.trans (List.suffix_append ..), ?_⟩
      rw [List.count_append, List.cons_append, crossings]
      omega
  | @group _ branches ls ts inside rest ihs ih =>
      obtain ⟨r, hr, hrest⟩ := (mem_restsOfAll_cons ..).1 hx
      obtain rfl | ⟨branch, hbranch, hr⟩ := exists_branch_of_mem_rests hr
      · obtain ⟨hsuffix, hle⟩ := ih hrest hs hnext
        have hbehind : crossings (ls ++ next) ≤
            crossings (.openGroup :: (grouped (branches.map Prod.fst) ++ ls) ++ next) :=
          crossings_le_of_suffix ⟨.openGroup :: grouped (branches.map Prod.fst), by simp⟩
        exact ⟨hsuffix, by omega⟩
      · obtain ⟨b, hb, rfl⟩ := List.mem_map.1 hbranch
        have hfirst : b.1 ∈ branches.map Prod.fst := List.mem_map.2 ⟨b, hb, rfl⟩
        obtain ⟨l, more, hl, before, hbefore⟩ := exists_branchEnd hfirst
        have hend : EndsBranch (l :: more ++ (ls ++ next)) r :=
          .inr ⟨more ++ (ls ++ next), hl.imp (by rintro rfl; rfl) (by rintro rfl; rfl)⟩
        obtain ⟨hsuffix, hle⟩ := ihs b hb hr hs hend
        obtain ⟨m, rfl⟩ := hsuffix
        obtain ⟨hsuffix', hle'⟩ := ih hrest hs.of_append hnext
        have hbehind : crossings (ls ++ next) ≤ crossings (l :: more ++ (ls ++ next)) :=
          crossings_le_of_suffix (List.suffix_append ..)
        have hinside : crossings (b.1 ++ (l :: more ++ (ls ++ next))) ≤
            crossings (.openGroup :: (grouped (branches.map Prod.fst) ++ ls) ++ next) :=
          crossings_le_of_suffix ⟨.openGroup :: before, by simp [← hbefore]⟩
        exact ⟨hsuffix'.trans (List.suffix_append ..), by omega⟩

end SamplerPorts.Glob
