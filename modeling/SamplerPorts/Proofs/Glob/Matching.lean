import SamplerPorts.Glob.Token

/-!
What the tokens of a glob leave of a path. The rests that can be left of some states are those that
can be left of one of them (`mem_restsOfAll_iff`), so a glob is read token by token: a literal takes
the bytes of its character and a star takes bytes up to the next slash. From this follows what a
glob with a single star matches (`isMatch_literals_star_iff`).
-/

namespace SamplerPorts.Glob
namespace Token

mutual

theorem mem_rests_iff (t : Token) (states : List Bytes) (x : Bytes) :
    x ∈ rests t states ↔ ∃ s ∈ states, x ∈ rests t [s] :=
  match t with
  | choice [] => by simp [rests]
  | choice (branch :: more) => by
      simp only [rests, List.mem_eraseDups]
      exact mem_restsOfAny_iff (branch :: more) states x
  | literal _ | anyOne | star | treeBefore | treeAfter | treeBetween | oneOf _ _ => by
      simp [rests, List.mem_eraseDups]

theorem mem_restsOfAll_iff (ts : List Token) (states : List Bytes) (x : Bytes) :
    x ∈ restsOfAll ts states ↔ ∃ s ∈ states, x ∈ restsOfAll ts [s] :=
  match ts with
  | [] => by simp [restsOfAll]
  | t :: ts => by
      simp only [restsOfAll]
      rw [mem_restsOfAll_iff ts]
      constructor
      · rintro ⟨r, hr, hx⟩
        obtain ⟨s, hs, hr⟩ := (mem_rests_iff t states r).1 hr
        exact ⟨s, hs, (mem_restsOfAll_iff ts _ x).2 ⟨r, hr, hx⟩⟩
      · rintro ⟨s, hs, hx⟩
        obtain ⟨r, hr, hx⟩ := (mem_restsOfAll_iff ts _ x).1 hx
        exact ⟨r, (mem_rests_iff t states r).2 ⟨s, hs, hr⟩, hx⟩

theorem mem_restsOfAny_iff (branches : List (List Token)) (states : List Bytes) (x : Bytes) :
    x ∈ restsOfAny branches states ↔ ∃ s ∈ states, x ∈ restsOfAny branches [s] :=
  match branches with
  | [] => by simp [restsOfAny]
  | branch :: more => by
      simp only [restsOfAny, List.mem_append]
      rw [mem_restsOfAll_iff branch, mem_restsOfAny_iff more]
      constructor
      · rintro (⟨s, hs, hx⟩ | ⟨s, hs, hx⟩)
        · exact ⟨s, hs, .inl hx⟩
        · exact ⟨s, hs, .inr hx⟩
      · rintro ⟨s, hs, hx | hx⟩
        · exact .inl ⟨s, hs, hx⟩
        · exact .inr ⟨s, hs, hx⟩

end

theorem mem_restsOfAll_cons (t : Token) (ts : List Token) (s x : Bytes) :
    x ∈ restsOfAll (t :: ts) [s] ↔ ∃ r ∈ rests t [s], x ∈ restsOfAll ts [r] := by
  rw [restsOfAll, mem_restsOfAll_iff]

theorem mem_rests_literal (c : Char) (s x : Bytes) :
    x ∈ rests (literal c) [s] ↔ s = String.utf8EncodeChar c ++ x := by
  simp only [rests, List.mem_eraseDups, List.flatMap_cons, List.flatMap_nil, List.append_nil,
    restsOf]
  by_cases h : (String.utf8EncodeChar c).isPrefixOf s
  · obtain ⟨r, rfl⟩ := List.isPrefixOf_iff_prefix.1 h
    simp [h, eq_comm]
  · simp only [if_neg h, List.not_mem_nil, false_iff]
    rintro rfl
    exact h (List.isPrefixOf_iff_prefix.2 (List.prefix_append _ _))

theorem mem_withinName (s x : Bytes) : x ∈ withinName s ↔ ∃ m, slash ∉ m ∧ s = m ++ x := by
  induction s with
  | nil =>
      simp only [withinName, List.mem_singleton]
      constructor
      · rintro rfl
        exact ⟨[], by simp, rfl⟩
      · rintro ⟨m, -, hm⟩
        exact (List.append_eq_nil_iff.1 hm.symm).2
  | cons b s ih =>
      simp only [withinName, List.mem_cons]
      constructor
      · rintro (rfl | hx)
        · exact ⟨[], by simp, rfl⟩
        · split at hx
          · cases hx
          · next hb =>
            obtain ⟨m, hm, rfl⟩ := ih.1 hx
            exact ⟨b :: m, by simp [hm, Ne.symm hb], rfl⟩
      · rintro ⟨m, hm, hs⟩
        cases m with
        | nil => exact .inl hs.symm
        | cons a m =>
            obtain ⟨rfl, rfl⟩ := List.cons.inj hs
            obtain ⟨hb, hm⟩ := List.ne_and_not_mem_of_not_mem_cons hm
            rw [if_neg (Ne.symm hb)]
            exact .inr (ih.2 ⟨m, hm, rfl⟩)

theorem mem_rests_star (s x : Bytes) : x ∈ rests star [s] ↔ ∃ m, slash ∉ m ∧ s = m ++ x := by
  rw [← mem_withinName]
  simp [rests, List.mem_eraseDups, restsOf]

/-- The tokens of a text without signs. -/
def literals (t : Text) : List Token := t.map literal

theorem mem_restsOfAll_literals (t : Text) (ts : List Token) (s x : Bytes) :
    x ∈ restsOfAll (literals t ++ ts) [s] ↔
      ∃ r, s = Text.encode t ++ r ∧ x ∈ restsOfAll ts [r] := by
  induction t generalizing s with
  | nil => simp [literals, Text.encode]
  | cons c t ih =>
      rw [literals, List.map_cons, List.cons_append, mem_restsOfAll_cons]
      constructor
      · rintro ⟨r, hr, hmem⟩
        obtain ⟨u, hu, hx⟩ := (ih r).1 hmem
        refine ⟨u, ?_, hx⟩
        rw [(mem_rests_literal c s r).1 hr, hu]
        simp [Text.encode]
      · rintro ⟨u, rfl, hx⟩
        refine ⟨Text.encode t ++ u, (mem_rests_literal c _ _).2 (by simp [Text.encode]), ?_⟩
        exact (ih _).2 ⟨u, rfl, hx⟩

end Token

/-- A glob with one star matches what begins and ends as it says and has no slash between. -/
theorem isMatch_literals_star_iff (t u : Text) (bs : Bytes) :
    isMatch (Token.literals t ++ .star :: Token.literals u) bs = true ↔
      ∃ m, slash ∉ m ∧ bs = Text.encode t ++ m ++ Text.encode u := by
  have hmatch : isMatch (Token.literals t ++ .star :: Token.literals u) bs =
      (Token.restsOfAll (Token.literals t ++ .star :: Token.literals u) [bs]).contains [] := by
    cases t <;> rfl
  rw [hmatch, List.contains_iff_mem, Token.mem_restsOfAll_literals]
  constructor
  · rintro ⟨r, rfl, hr⟩
    obtain ⟨s, hs, hu⟩ := (Token.mem_restsOfAll_cons ..).1 hr
    obtain ⟨m, hm, rfl⟩ := (Token.mem_rests_star r s).1 hs
    rw [← List.append_nil (Token.literals u), Token.mem_restsOfAll_literals] at hu
    obtain ⟨left, rfl, hleft⟩ := hu
    obtain rfl : left = [] := by simpa [Token.restsOfAll, eq_comm] using hleft
    exact ⟨m, hm, by simp⟩
  · rintro ⟨m, hm, rfl⟩
    refine ⟨m ++ Text.encode u, by simp, (Token.mem_restsOfAll_cons ..).2 ⟨Text.encode u, ?_, ?_⟩⟩
    · exact (Token.mem_rests_star _ _).2 ⟨m, hm, rfl⟩
    · rw [← List.append_nil (Token.literals u), Token.mem_restsOfAll_literals]
      exact ⟨[], by simp, by simp [Token.restsOfAll]⟩

end SamplerPorts.Glob
