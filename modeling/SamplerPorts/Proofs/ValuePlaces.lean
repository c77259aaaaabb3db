import SamplerPorts.Proofs.LineFates

/-!
Where port values stand in a line. A value is found at the leftmost place where one begins and is
read as far as it goes, and the search goes on behind it (`Places`), so a line has one list of
places (`Places.unique`). Setting the values of a line puts the new value at each place and nothing
else (`exists_places_setAll`): no value is found where two texts of the line have met, and no digit
stands behind a new value. So a line that is set has as many values as before, all of them the port
of its endpoint, between the same texts (`values_of_set_line`).
-/

namespace SamplerPorts
open Text PortValue

namespace PortValue

/-- A place in a text: what stands before it, what stands there, and all that stands behind it. -/
structure Place where
  before : Text
  value : Text
  behind : Text

/-- The place is the first one of a port value. None begins further to the left, and none that
begins there ends further to the right. -/
structure Place.IsFirst (p : Place) (t : Text) : Prop where
  text_eq : t = p.before ++ (p.value ++ p.behind)
  isValue : IsValue p.value
  leftmost : ∀ before value behind, t = before ++ (value ++ behind) → IsValue value →
    p.before.length ≤ before.length
  longest : ∀ value behind, p.value ++ p.behind = value ++ behind → IsValue value →
    value.length ≤ p.value.length

/-- The places of the port values in a text, each of them searched for behind the one before it,
and the text behind the last one. -/
inductive Places : Text → List Place → Text → Prop
  | none {t : Text} (free : ∀ m, IsValue m → ¬ m <:+: t) : Places t [] t
  | first {t : Text} {p : Place} {ps : List Place} {last : Text} (first : p.IsFirst t)
      (more : Places p.behind ps last) : Places t (p :: ps) last

theorem Place.IsFirst.unique {p q : Place} {t : Text} (hp : p.IsFirst t) (hq : q.IsFirst t) :
    p = q := by
  have hlength : p.before.length = q.before.length :=
    Nat.le_antisymm (hp.leftmost _ _ _ hq.text_eq hq.isValue)
      (hq.leftmost _ _ _ hp.text_eq hp.isValue)
  obtain ⟨hbefore, hrest⟩ := List.append_inj (hp.text_eq.symm.trans hq.text_eq) hlength
  have hvalue : p.value.length = q.value.length :=
    Nat.le_antisymm (hq.longest _ _ hrest.symm hp.isValue) (hp.longest _ _ hrest hq.isValue)
  obtain ⟨hvalue, hbehind⟩ := List.append_inj hrest hvalue
  cases p
  cases q
  simp_all

theorem Places.unique {t last last' : Text} {ps qs : List Place} (h : Places t ps last)
    (h' : Places t qs last') : qs = ps ∧ last' = last := by
  induction h generalizing qs last' with
  | none free =>
      cases h' with
      | none _ => exact ⟨rfl, rfl⟩
      | first hq _ =>
          refine absurd ?_ (free _ hq.isValue)
          rw [hq.text_eq]
          exact (List.prefix_append ..).isInfix.trans (List.suffix_append ..).isInfix
  | first hp _ ih =>
      cases h' with
      | none free =>
          refine absurd ?_ (free _ hp.isValue)
          rw [hp.text_eq]
          exact (List.prefix_append ..).isInfix.trans (List.suffix_append ..).isInfix
      | first hq more =>
          obtain rfl := hp.unique hq
          obtain ⟨rfl, rfl⟩ := ih more
          exact ⟨rfl, rfl⟩

/-- What follows a value can be part of a longer one only if it is a digit. -/
theorem length_le_of_append {m m' rest behind : Text} (hm : IsValue m) (hr : NoDigitFirst rest)
    (hm' : IsValue m') (h : m ++ rest = m' ++ behind) : m'.length ≤ m.length := by
  obtain ⟨x, hx, hrest⟩ | ⟨x, hx, -⟩ := List.append_eq_append_iff.1 h
  · cases x with
    | nil => simp [hx]
    | cons c x =>
        obtain ⟨b, digits, -, -, -, rfl⟩ := hm
        obtain ⟨b', digits', -, -, hdigits, rfl⟩ := hm'
        rw [List.append_assoc, List.append_cancel_left_eq, List.cons_append, List.cons.injEq,
          List.append_assoc, List.append_cancel_left_eq] at hx
        have hdigit : isDecimalDigit c = true := hdigits c (by simp [hx.2])
        rw [hr c (by simp [hrest])] at hdigit
        cases hdigit
  · simp [hx]

/-- A value at the head of a text is the first one. -/
theorem isFirst_of_append {m rest : Text} (hm : IsValue m) (hr : NoDigitFirst rest) :
    Place.IsFirst ⟨[], m, rest⟩ (m ++ rest) where
  text_eq := rfl
  isValue := hm
  leftmost _ _ _ _ _ := Nat.zero_le _
  longest _ _ h hm' := length_le_of_append hm hr hm' h

theorem after?_isSome_of_append {m : Text} (hm : IsValue m) (rest : Text) :
    (after? (m ++ rest)).isSome := by
  obtain ⟨b, digits, hb, hne, hd, rfl⟩ := hm
  obtain ⟨digit, digits, rfl⟩ := List.exists_cons_of_ne_nil hne
  exact after?_isSome_iff.2 ⟨b, digit, digits ++ rest, hb, hd digit (by simp), by simp⟩

section
variable {c : Char} {t last : Text} (h : after? (c :: t) = none)
include h

/-- A value that stands behind a character that none begins with stands in the rest. -/
theorem exists_before_of_cons {before value behind : Text} (hv : IsValue value)
    (heq : c :: t = before ++ (value ++ behind)) :
    ∃ more, before = c :: more ∧ t = more ++ (value ++ behind) := by
  cases before with
  | nil =>
      have hsome := after?_isSome_of_append hv behind
      rw [← List.nil_append (value ++ behind), ← heq, h] at hsome
      cases hsome
  | cons d more =>
      obtain ⟨rfl, rfl⟩ := List.cons.inj heq
      exact ⟨more, rfl, rfl⟩

theorem Place.IsFirst.cons {p : Place} (hp : p.IsFirst t) :
    Place.IsFirst ⟨c :: p.before, p.value, p.behind⟩ (c :: t) where
  text_eq := congrArg (c :: ·) hp.text_eq
  isValue := hp.isValue
  leftmost before value behind heq hv := by
    obtain ⟨more, rfl, ht⟩ := exists_before_of_cons h hv heq
    exact Nat.succ_le_succ (hp.leftmost more value behind ht hv)
  longest := hp.longest

theorem not_infix_cons (free : ∀ m, IsValue m → ¬ m <:+: t) (m : Text) (hm : IsValue m) :
    ¬ m <:+: c :: t := by
  rintro ⟨before, behind, heq⟩
  rw [List.append_assoc] at heq
  obtain ⟨more, -, ht⟩ := exists_before_of_cons h hm heq.symm
  exact free m hm ⟨more, behind, by rw [ht, List.append_assoc]⟩

end

/-- Setting the values of a text puts the new value at each of their places, and there is no other
place in the new text. -/
theorem exists_places_setAll {v : Text} (hv : IsValue v) (t : Text) :
    ∃ ps qs last, Places t ps last ∧ Places (setAll v t) qs last ∧
      qs.map Place.before = ps.map Place.before ∧
      ∀ q ∈ qs, q.value = v ∧ NoDigitFirst q.behind := by
  induction t using valueInduction with
  | nil =>
      have free : ∀ m, IsValue m → ¬ m <:+: [] := by
        intro m hm hinfix
        obtain ⟨x, rfl⟩ := hm.eq_cons
        simp at hinfix
      refine ⟨[], [], [], .none free, ?_, rfl, by simp⟩
      rw [setAll_nil]
      exact .none free
  | value t rest h ih =>
      obtain ⟨m, hm, hr, rfl⟩ := eq_append_of_after? h
      obtain ⟨ps, qs, last, hps, hqs, hbefore, hnew⟩ := ih
      have hr' := noDigitFirst_setAll hv hr
      refine ⟨⟨[], m, rest⟩ :: ps, ⟨[], v, setAll v rest⟩ :: qs, last,
        .first (isFirst_of_append hm hr) hps, ?_, by simp [hbefore], ?_⟩
      · rw [setAll_of_after? v h]
        exact .first (isFirst_of_append hv hr') hqs
      · exact List.forall_mem_cons.2 ⟨⟨rfl, hr'⟩, hnew⟩
  | char c rest h ih =>
      obtain ⟨ps, qs, last, hps, hqs, hbefore, hnew⟩ := ih
      have h' := after?_cons_setAll hv h
      rw [setAll_cons v h]
      cases hps with
      | none free =>
          obtain rfl : qs = [] := by simpa using hbefore
          generalize setAll v rest = new at hqs h'
          cases hqs with
          | none free' =>
              exact ⟨[], [], c :: rest, .none (not_infix_cons h free),
                .none (not_infix_cons h' free'), rfl, by simp⟩
      | @first _ p ps _ hp hps =>
          cases hqs with
          | none _ => simp at hbefore
          | @first _ q qs _ hq hqs =>
              rw [List.map_cons, List.map_cons, List.cons.injEq] at hbefore
              rw [List.forall_mem_cons] at hnew
              refine ⟨_, _, last, .first (hp.cons h) hps, .first (hq.cons h') hqs, ?_, ?_⟩
              · simp [hbefore]
              · exact List.forall_mem_cons.2 hnew

/-- The new text has a port at the place of every value of the old one, of which there is at least
one, and between them the same texts. -/
def HasValuesSet (port : Port) (old new : Text) : Prop :=
  ∃ ps qs last, (∀ ps' last', Places old ps' last' ↔ ps' = ps ∧ last' = last) ∧
    (∀ qs' last', Places new qs' last' ↔ qs' = qs ∧ last' = last) ∧
    ps ≠ [] ∧ qs.length = ps.length ∧ qs.map Place.before = ps.map Place.before ∧
    ∀ q ∈ qs, q.value = key ++ ofNat port.toNat ∧ NoDigitFirst q.behind

theorem Places.iff_of_mem {t last : Text} {ps : List Place} (h : Places t ps last)
    (qs : List Place) (last' : Text) : Places t qs last' ↔ qs = ps ∧ last' = last := by
  constructor
  · exact h.unique
  · rintro ⟨rfl, rfl⟩
    exact h

theorem hasValuesSet_setAll (port : Port) {m line : Text} (hm : IsValue m) (hin : m <:+: line) :
    HasValuesSet port line (setAll (written port.toNat) line) := by
  obtain ⟨ps, qs, last, hps, hqs, hbefore, hnew⟩ :=
    exists_places_setAll (isValue_written port.toNat) line
  refine ⟨ps, qs, last, hps.iff_of_mem, hqs.iff_of_mem, ?_, ?_, hbefore, hnew⟩
  · rintro rfl
    cases hps with
    | none free => exact free m hm hin
  · simpa using congrArg List.length hbefore

end PortValue

/-- What becomes of a line with an old port whose endpoint is known, whatever the rule is that knows
it. Every port value on the line, and there is one, becomes the port of the endpoint with no other
digit behind it, and nothing else on the line changes. -/
theorem values_of_set_line (a : Assigner) {source line : Text} {i : Nat} {endpoint : Endpoint}
    {port : Port} (hline : (lines source)[i]? = some line) (hport : a.config.IsPortLine line)
    (hendpoint : a.classifier.classify (lines source) i = some endpoint)
    (hnew : endpoint = .rest ∧ port = a.config.restPort ∨
      endpoint = .graphQl ∧ port = a.config.graphQlPort) :
    ∃ new, (lines (a.apply source).content)[i]? = some new ∧ HasValuesSet port line new := by
  have hto : a.config.portOf? endpoint = some port := by
    obtain ⟨rfl, rfl⟩ | ⟨rfl, rfl⟩ := hnew <;> rfl
  have hhandles : a.handles line = true := (Assigner.handles_iff a.config).2 hport
  have hverdict : a.verdict (lines source) i line = .set endpoint port := by
    rw [Assigner.verdict, if_pos hhandles, hendpoint]
    simp only [hto]
  refine ⟨setAll (written port.toNat) line, ?_, ?_⟩
  · rw [Assigner.getElem?_lines_content, hline, Option.map_some, hverdict]
    rfl
  · obtain ⟨old, -, hold⟩ := hport
    exact hasValuesSet_setAll port (isValue_written old.toNat) hold

/-- Two values that touch, the first one with a carriage return in its key and the second one with
digits of another script behind an old port, under a rule that finds GraphQL for every line. -/
theorem values_of_set_line_touching :
    let a : Assigner := ⟨.standard, ⟨fun _ _ => some .graphQl, none, []⟩⟩
    let line := "HTTPSampler\rport\">1HTTPSampler.port\">3033٣</x>\r".toList
    let source := line ++ "\nHTTPSampler.path\">/api".toList
    (lines source)[0]? = some line ∧ a.config.IsPortLine line ∧
      a.classifier.classify (lines source) 0 = some .graphQl ∧
      ∃ new, (lines (a.apply source).content)[0]? = some new ∧
        HasValuesSet a.config.graphQlPort line new := by
  intro a line source
  have hline : (lines source)[0]? = some line := by decide +kernel
  have hport : a.config.IsPortLine line :=
    ⟨3033, by decide, has_iff.1 (by decide +kernel)⟩
  exact ⟨hline, hport, rfl, values_of_set_line a hline hport rfl (.inr ⟨rfl, rfl⟩)⟩

end SamplerPorts
