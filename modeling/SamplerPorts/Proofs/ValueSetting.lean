import SamplerPorts.PortValue

/-!
Port values before and after they are set. A port value can neither begin nor end inside another
one, so setting the values of a line keeps the texts around them (`around_setAll`), and only the
value that is set last counts (`setAll_setAll`). A text that stays clear of port values stands in a
line after its values are set if and only if it stood there before (`has_setAll`).
-/

namespace SamplerPorts.PortValue
open Text

/-- A port value with any character but a line feed between the two words of its key. -/
def IsValue (m : Text) : Prop :=
  ∃ between digits, between ≠ '\n' ∧ digits ≠ [] ∧ (∀ d ∈ digits, isDecimalDigit d = true) ∧
    m = "HTTPSampler".toList ++ between :: ("port\">".toList ++ digits)

def NoDigitFirst (t : Text) : Prop := ∀ c ∈ t.head?, isDecimalDigit c = false

theorem isValue_written (port : Nat) : IsValue (written port) := by
  have hne : Text.ofNat port ≠ [] := Nat.toDigits_ne_nil
  have hkey : key = "HTTPSampler".toList ++ '.' :: "port\">".toList := by decide
  refine ⟨'.', Text.ofNat port, by decide, hne, ?_, ?_⟩
  · intro d hd
    exact isDecimalDigit_of_isDigit (Nat.isDigit_of_mem_toDigits (by decide) (by decide) hd)
  · rw [written, hkey, List.append_assoc, List.cons_append]

theorem not_mem_written {c : Char} (hkey : c ∉ key) (hdigit : c.isDigit = false) (port : Nat) :
    c ∉ written port := by
  intro h
  obtain h | h := List.mem_append.1 h
  · exact hkey h
  · rw [Nat.isDigit_of_mem_toDigits (by decide) (by decide) h] at hdigit
    cases hdigit

theorem ne_of_isDecimalDigit {c d : Char} (hc : isDecimalDigit c = true)
    (hd : isDecimalDigit d = false) : c ≠ d := by
  rintro rfl
  rw [hc] at hd
  cases hd

theorem afterKey?_eq_some_iff {t rest : Text} :
    afterKey? t = some rest ↔
      ∃ between, between ≠ '\n' ∧
        t = "HTTPSampler".toList ++ between :: ("port\">".toList ++ rest) := by
  constructor
  · intro h
    rw [afterKey?] at h
    split at h
    · next c r hr =>
      split at h
      · cases h
      · next hc =>
        refine ⟨c, hc, ?_⟩
        rw [rest?_eq_some_iff.1 hr, rest?_eq_some_iff.1 h]
    · cases h
  · rintro ⟨c, hc, rfl⟩
    have word := rest?_eq_some_iff.2
      (rfl : "HTTPSampler".toList ++ c :: ("port\">".toList ++ rest) = _)
    simp only [afterKey?, word, if_neg hc]
    exact rest?_eq_some_iff.2 rfl

theorem after?_isSome_iff {t : Text} :
    (after? t).isSome ↔
      ∃ between digit rest, between ≠ '\n' ∧ isDecimalDigit digit = true ∧
        t = "HTTPSampler".toList ++ between :: ("port\">".toList ++ digit :: rest) := by
  constructor
  · intro h
    rw [after?] at h
    split at h
    · next c r hr =>
      split at h
      · next hc =>
        obtain ⟨b, hb, ht⟩ := afterKey?_eq_some_iff.1 hr
        exact ⟨b, c, r, hb, hc, ht⟩
      · cases h
    · cases h
  · rintro ⟨b, c, r, hb, hc, ht⟩
    simp [after?, afterKey?_eq_some_iff.2 ⟨b, hb, ht⟩, hc]

/-- A port value is read to its last digit. -/
theorem after?_append {m rest : Text} (hm : IsValue m) (hr : NoDigitFirst rest) :
    after? (m ++ rest) = some rest := by
  obtain ⟨b, digits, hb, hne, hd, rfl⟩ := hm
  have hk : afterKey? ("HTTPSampler".toList ++ b :: ("port\">".toList ++ digits) ++ rest)
      = some (digits ++ rest) :=
    afterKey?_eq_some_iff.2 ⟨b, hb, by simp⟩
  have hdrop : (digits ++ rest).dropWhile isDecimalDigit = rest := by
    rw [List.dropWhile_append_of_pos hd]
    cases rest with
    | nil => rfl
    | cons c rest => simp [hr c (by simp)]
  cases digits with
  | nil => exact absurd rfl hne
  | cons d digits => simp_all [after?]

theorem eq_append_of_after? {t rest : Text} (h : after? t = some rest) :
    ∃ m, IsValue m ∧ NoDigitFirst rest ∧ t = m ++ rest := by
  rw [after?] at h
  split at h
  · next c r hr =>
    split at h
    · next hc =>
      obtain ⟨b, hb, rfl⟩ := afterKey?_eq_some_iff.1 hr
      cases h
      refine ⟨_, ⟨b, (c :: r).takeWhile isDecimalDigit, hb, by simp [hc], ?_, rfl⟩, ?_, ?_⟩
      · exact List.all_eq_true.1 List.all_takeWhile
      · intro d hd
        have := List.head?_dropWhile_not isDecimalDigit r
        simp_all
      · have := List.takeWhile_append_dropWhile (p := isDecimalDigit) (l := c :: r)
        simp_all
    · cases h
  · cases h

theorem after?_eq_none_of_ne {c : Char} (t : Text) (h : c ≠ 'H') : after? (c :: t) = none := by
  rw [← Option.not_isSome_iff_eq_none, after?_isSome_iff]
  rintro ⟨b, d, rest, -, -, ht⟩
  simp_all

theorem around_ne_nil (t : Text) : around t ≠ [] := by
  induction t using around.induct with
  | case1 t rest h => rw [around]; split <;> simp_all
  | case2 => rw [around]; exact List.cons_ne_nil _ _
  | case3 c rest h hnil => rw [around]; split <;> simp_all
  | case4 c rest h first more hcons => rw [around]; split <;> simp_all

theorem around_of_after? {t rest : Text} (h : after? t = some rest) :
    around t = [] :: around rest := by
  rw [around]
  split <;> simp_all

theorem around_cons {c : Char} {rest first : Text} {more : List Text}
    (h : after? (c :: rest) = none) (hr : around rest = first :: more) :
    around (c :: rest) = (c :: first) :: more := by
  rw [around]
  split <;> simp_all

theorem setAll_nil (v : Text) : setAll v [] = [] := by
  rw [setAll, around]
  rfl

theorem setAll_of_after? (v : Text) {t rest : Text} (h : after? t = some rest) :
    setAll v t = v ++ setAll v rest := by
  simp [setAll, around_of_after? h, join_cons_of_ne_nil _ _ (around_ne_nil rest)]

theorem setAll_cons (v : Text) {c : Char} {rest : Text} (h : after? (c :: rest) = none) :
    setAll v (c :: rest) = c :: setAll v rest := by
  cases hr : around rest with
  | nil => exact absurd hr (around_ne_nil rest)
  | cons first more =>
      rw [setAll, setAll, around_cons h hr, hr]
      cases more <;> rfl

/-- A line is read from the left: at each place there is the end, a port value, or a character that
no port value begins with. -/
theorem valueInduction {P : Text → Prop} (nil : P [])
    (value : ∀ t rest, after? t = some rest → P rest → P t)
    (char : ∀ c rest, after? (c :: rest) = none → P rest → P (c :: rest)) (t : Text) : P t := by
  induction t using around.induct with
  | case1 t rest h ih => exact value t rest h ih
  | case2 => exact nil
  | case3 c rest h _ ih => exact char c rest h ih
  | case4 c rest h _ _ _ ih => exact char c rest h ih

theorem IsValue.eq_cons {v : Text} (hv : IsValue v) : ∃ t, v = 'H' :: 'T' :: t := by
  obtain ⟨b, digits, -, -, -, rfl⟩ := hv
  exact ⟨"TPSampler".toList ++ b :: ("port\">".toList ++ digits), by simp⟩

theorem setAll_append (v : Text) {p : Text} (hp : 'H' ∉ p) (t : Text) :
    setAll v (p ++ t) = p ++ setAll v t := by
  induction p with
  | nil => rfl
  | cons a p ih =>
      obtain ⟨ha, hp⟩ := List.ne_and_not_mem_of_not_mem_cons hp
      rw [List.cons_append, setAll_cons v (after?_eq_none_of_ne _ (Ne.symm ha)), ih hp]
      rfl

section
variable {v : Text} (hv : IsValue v)
include hv

theorem prefix_setAll_iff {p : Text} (hp : 'H' ∉ p) (t : Text) : p <+: setAll v t ↔ p <+: t := by
  induction p generalizing t with
  | nil => simp
  | cons a p ih =>
      obtain ⟨ha, hp⟩ := List.ne_and_not_mem_of_not_mem_cons hp
      induction t using valueInduction with
      | nil => rw [setAll_nil]
      | value t rest h =>
          obtain ⟨m, hm, -, rfl⟩ := eq_append_of_after? h
          obtain ⟨x, rfl⟩ := hm.eq_cons
          obtain ⟨y, rfl⟩ := hv.eq_cons
          rw [setAll_of_after? _ h]
          simp [Ne.symm ha]
      | char c rest h => rw [setAll_cons v h, List.cons_prefix_cons, List.cons_prefix_cons, ih hp]

theorem noDigitFirst_setAll {t : Text} (h : NoDigitFirst t) : NoDigitFirst (setAll v t) := by
  induction t using valueInduction with
  | nil => rwa [setAll_nil]
  | value t rest hr =>
      obtain ⟨y, rfl⟩ := hv.eq_cons
      rw [setAll_of_after? _ hr]
      intro c hc
      obtain rfl : 'H' = c := by simpa using hc
      decide
  | char c rest hr =>
      rw [setAll_cons v hr]
      simpa [NoDigitFirst] using h

/-- No port value begins where there was none before. It would have to reach into one that was set,
but a value that begins behind the head of another one begins no later than its last word. -/
theorem after?_cons_setAll {c : Char} {rest : Text} (h : after? (c :: rest) = none) :
    after? (c :: setAll v rest) = none := by
  rw [← Option.not_isSome_iff_eq_none] at h ⊢
  intro hs
  apply h
  obtain ⟨b, d, x, hb, hd, ht⟩ := after?_isSome_iff.1 hs
  have hword : "HTTPSampler".toList = 'H' :: "TTPSampler".toList := by decide
  rw [hword, List.cons_append, List.cons.injEq] at ht
  obtain ⟨y, rfl⟩ : "TTPSampler".toList <+: rest :=
    (prefix_setAll_iff hv (by decide) rest).1 ⟨_, ht.2.symm⟩
  rw [setAll_append v (by decide), List.append_cancel_left_eq] at ht
  have hy : after? y = none := by
    rw [← Option.not_isSome_iff_eq_none]
    intro hs
    obtain ⟨z, hz⟩ := Option.isSome_iff_exists.1 hs
    obtain ⟨w, rfl⟩ := hv.eq_cons
    simp [setAll_of_after? _ hz] at ht
  cases y with
  | nil => simp [setAll_nil] at ht
  | cons b' y =>
      rw [setAll_cons v hy, List.cons.injEq] at ht
      obtain ⟨rfl, rfl, ht⟩ := ht
      have hH : 'H' ∉ "port\">".toList ++ [d] := by
        have := ne_of_isDecimalDigit hd (by decide : isDecimalDigit 'H' = false)
        simp [Ne.symm this]
      obtain ⟨z, rfl⟩ := (prefix_setAll_iff hv hH y).1 ⟨x, by simp [ht]⟩
      exact after?_isSome_iff.2 ⟨b', d, z, hb, hd, by simp⟩

theorem around_setAll (t : Text) : around (setAll v t) = around t := by
  induction t using valueInduction with
  | nil => rw [setAll_nil]
  | value t rest h ih =>
      obtain ⟨m, -, hr, rfl⟩ := eq_append_of_after? h
      have := after?_append hv (noDigitFirst_setAll hv hr)
      rw [setAll_of_after? v h, around_of_after? this, ih, around_of_after? h]
  | char c rest h ih =>
      cases hr : around rest with
      | nil => exact absurd hr (around_ne_nil rest)
      | cons first more =>
          rw [setAll_cons v h, around_cons (after?_cons_setAll hv h) (ih.trans hr),
            around_cons h hr]

/-- Only the value that is set last counts. -/
theorem setAll_setAll (w t : Text) : setAll w (setAll v t) = setAll w t := by
  rw [setAll, around_setAll hv, setAll]

theorem not_mem_setAll {t : Text} (h : '\n' ∉ t) : '\n' ∉ setAll v t := by
  induction t using valueInduction with
  | nil => rwa [setAll_nil]
  | value t rest hr ih =>
      obtain ⟨m, -, -, rfl⟩ := eq_append_of_after? hr
      have hlf : '\n' ∉ v := by
        obtain ⟨b, digits, hb, -, hd, rfl⟩ := hv
        have : '\n' ∉ digits := fun hmem => ne_of_isDecimalDigit (hd _ hmem) (by decide) rfl
        simp_all [Ne.symm hb]
      rw [setAll_of_after? v hr]
      simp_all
  | char c rest hr ih =>
      rw [setAll_cons v hr]
      simp_all

end

theorem has_append_of_not_mem {a : Char} {p s : Text} (h : a ∉ s) (t : Text) :
    has (a :: p) (s ++ t) = has (a :: p) t := by
  induction s with
  | nil => rfl
  | cons c s ih =>
      obtain ⟨hc, hs⟩ := List.ne_and_not_mem_of_not_mem_cons h
      simp [has, List.isPrefixOf, hc, ih hs]

/-- Texts that share no character with a port value where both stand in a line. -/
structure Apart (part : Text) : Prop where
  noKeyBehind : 'H' ∉ part.tail
  has_append : ∀ m rest, IsValue m → has part (m ++ rest) = has part rest

/-- What tells a text apart from port values: its first character stands nowhere in a value but in
front of it and between the words of the key, and its other characters do not fit there. -/
theorem apart_of_head {a b : Char} {p : Text} (hkey : 'H' ∉ b :: p)
    (ha : a ∉ "TTPSampler".toList ++ "port\">".toList) (hd : isDecimalDigit a = false)
    (hb : b ≠ 'p')
    (front : ∀ c t, (a :: b :: p).isPrefixOf
      ("HTTPSampler".toList ++ c :: ("port\">".toList ++ t)) = false) :
    Apart (a :: b :: p) := by
  refine ⟨hkey, ?_⟩
  rintro m rest ⟨c, digits, -, -, hdigits, rfl⟩
  have hword : "HTTPSampler".toList = 'H' :: "TTPSampler".toList := by decide
  have hport : "port\">".toList = 'p' :: "ort\">".toList := by decide
  have hout : a ∉ "port\">".toList ++ digits := by
    intro hmem
    obtain h | h := List.mem_append.1 hmem
    · exact ha (List.mem_append_right _ h)
    · exact ne_of_isDecimalDigit (hdigits a h) hd rfl
  have hfront := front c (digits ++ rest)
  rw [hword] at hfront ⊢
  simp only [List.append_assoc, List.cons_append] at hfront ⊢
  rw [has, hfront, Bool.false_or, has_append_of_not_mem (fun h => ha (List.mem_append_left _ h)),
    has, ← List.append_assoc, has_append_of_not_mem hout]
  simp [List.isPrefixOf, hport, hb]

theorem has_setAll {part v : Text} (hp : Apart part) (hv : IsValue v) (t : Text) :
    has part (setAll v t) = has part t := by
  induction t using valueInduction with
  | nil => rw [setAll_nil]
  | value t rest h ih =>
      obtain ⟨m, hm, -, rfl⟩ := eq_append_of_after? h
      rw [setAll_of_after? v h, hp.has_append v _ hv, hp.has_append m _ hm, ih]
  | char c rest h ih =>
      rw [setAll_cons v h, has, has, ih]
      congr 1
      cases part with
      | nil => rfl
      | cons a p =>
          rw [Bool.eq_iff_iff, List.isPrefixOf_iff_prefix, List.isPrefixOf_iff_prefix,
            List.cons_prefix_cons, List.cons_prefix_cons]
          exact and_congr Iff.rfl (prefix_setAll_iff hv hp.noKeyBehind rest)

end SamplerPorts.PortValue
