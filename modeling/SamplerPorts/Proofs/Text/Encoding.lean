import SamplerPorts.Text.Basic

/-!
The UTF-8 form of a text, as far as ASCII goes. The byte of an ASCII character stands for nothing
else, so where it is in the bytes of a text, the character is in the text, with the bytes of the
texts around it on both sides (`split_of_encode`). Hence an ASCII text is in a text if its bytes are
in the bytes (`encode_infix_iff`).
-/

namespace SamplerPorts.Text

def IsAscii (t : Text) : Prop := ∀ c ∈ t, c.toNat < 128

theorem encode_cons (c : Char) (t : Text) :
    encode (c :: t) = String.utf8EncodeChar c ++ encode t := by
  simp [encode]

theorem encode_injective {t u : Text} (h : encode t = encode u) : t = u := by
  have hd := decode?_encode t
  rw [h, decode?_encode] at hd
  exact (Option.some.inj hd).symm

theorem encodeChar_of_ascii {c : Char} (h : c.toNat < 128) :
    String.utf8EncodeChar c = [UInt8.ofNat c.toNat] := by
  have h : c.val.toNat ≤ 127 := Nat.le_of_lt_succ h
  rw [String.utf8EncodeChar]
  exact if_pos h

/-- The bytes of a character outside ASCII are all outside ASCII. -/
theorem le_of_mem_encodeChar {c : Char} (h : 128 ≤ c.toNat) {b : UInt8}
    (hb : b ∈ String.utf8EncodeChar c) : 128 ≤ b.toNat := by
  have h : ¬ c.val.toNat ≤ 127 := Nat.not_le_of_lt h
  simp only [String.utf8EncodeChar, if_neg h] at hb
  split at hb
  · simp only [List.mem_cons, List.not_mem_nil, or_false] at hb
    obtain rfl | rfl := hb <;> simp only [UInt8.toNat_ofNat'] <;> omega
  · split at hb
    · simp only [List.mem_cons, List.not_mem_nil, or_false] at hb
      obtain rfl | rfl | rfl := hb <;> simp only [UInt8.toNat_ofNat'] <;> omega
    · simp only [List.mem_cons, List.not_mem_nil, or_false] at hb
      obtain rfl | rfl | rfl | rfl := hb <;> simp only [UInt8.toNat_ofNat'] <;> omega

section
variable {a : Char} (ha : a.toNat < 128)
include ha

/-- The byte of an ASCII character is in the bytes of this character only. -/
theorem eq_of_mem_encodeChar {c : Char} (h : UInt8.ofNat a.toNat ∈ String.utf8EncodeChar c) :
    c = a := by
  by_cases hc : c.toNat < 128
  · rw [encodeChar_of_ascii hc, List.mem_singleton] at h
    have := congrArg UInt8.toNat h
    simp only [UInt8.toNat_ofNat'] at this
    apply Char.ext
    apply UInt32.toNat_inj.1
    change c.toNat = a.toNat
    omega
  · have := le_of_mem_encodeChar (Nat.le_of_not_lt hc) h
    simp only [UInt8.toNat_ofNat'] at this
    omega

theorem split_of_encode {t : Text} {bs cs : Bytes}
    (h : encode t = bs ++ UInt8.ofNat a.toNat :: cs) :
    ∃ u v, t = u ++ a :: v ∧ encode u = bs ∧ encode v = cs := by
  induction t generalizing bs with
  | nil => simp [encode] at h
  | cons c t ih =>
      rw [encode_cons] at h
      obtain ⟨bs, rfl, ht⟩ | ⟨w, hc, h⟩ := List.append_eq_append_iff.1 h
      · obtain ⟨u, v, rfl, rfl, rfl⟩ := ih ht
        exact ⟨c :: u, v, rfl, encode_cons c u, rfl⟩
      · cases w with
        | nil =>
            obtain ⟨u, v, rfl, hu, rfl⟩ := @ih [] h.symm
            refine ⟨c :: u, v, rfl, ?_, rfl⟩
            rw [encode_cons, hu, hc, List.append_nil, List.append_nil]
        | cons b w =>
            -- the byte is one of the bytes of `c`, so it is the only one
            obtain ⟨rfl, rfl⟩ := List.cons.inj h
            obtain rfl := eq_of_mem_encodeChar ha (c := c) (by simp [hc])
            rw [encodeChar_of_ascii ha] at hc
            cases bs with
            | nil =>
                obtain rfl : w = [] := by simpa using hc
                exact ⟨[], t, rfl, rfl, rfl⟩
            | cons b bs => simp at hc

theorem mem_encode_iff {t : Text} : UInt8.ofNat a.toNat ∈ encode t ↔ a ∈ t := by
  constructor
  · intro h
    obtain ⟨bs, cs, h⟩ := List.append_of_mem h
    obtain ⟨u, v, rfl, -, -⟩ := split_of_encode ha h
    simp
  · intro h
    refine List.mem_flatMap.2 ⟨a, h, ?_⟩
    rw [encodeChar_of_ascii ha]
    exact List.mem_singleton_self _

/-- A text whose bytes end like those of a text that begins in ASCII ends in this text. -/
theorem eq_append_of_encode {s t : Text} {bs : Bytes} (h : encode t = bs ++ encode (a :: s)) :
    ∃ u, t = u ++ a :: s ∧ encode u = bs := by
  rw [encode_cons, encodeChar_of_ascii ha] at h
  obtain ⟨u, v, rfl, rfl, hv⟩ := split_of_encode ha h
  exact ⟨u, by rw [encode_injective hv], rfl⟩

end

theorem eq_prepend_of_encode {s : Text} (hs : s.IsAscii) {t : Text} {bs : Bytes}
    (h : encode t = encode s ++ bs) : ∃ u, t = s ++ u := by
  induction s generalizing t with
  | nil => exact ⟨t, rfl⟩
  | cons a s ih =>
      have ha : a.toNat < 128 := hs a (List.mem_cons_self ..)
      rw [encode_cons, encodeChar_of_ascii ha] at h
      obtain ⟨u, v, rfl, hu, hv⟩ := split_of_encode ha (show encode t = [] ++ _ from h)
      obtain ⟨w, rfl⟩ := ih (fun c hc => hs c (List.mem_cons_of_mem _ hc)) hv
      obtain rfl := encode_injective (u := []) hu
      exact ⟨w, rfl⟩

theorem encode_infix_iff {s : Text} (hs : s.IsAscii) {t : Text} :
    encode s <:+: encode t ↔ s <:+: t := by
  constructor
  · rintro ⟨bs, cs, h⟩
    cases s with
    | nil => exact List.nil_infix
    | cons a s =>
        have ha : a.toNat < 128 := hs a (List.mem_cons_self ..)
        rw [encode_cons, encodeChar_of_ascii ha, List.append_assoc] at h
        obtain ⟨u, v, rfl, -, hv⟩ := split_of_encode ha h.symm
        obtain ⟨w, rfl⟩ := eq_prepend_of_encode (fun c hc => hs c (List.mem_cons_of_mem _ hc)) hv
        exact ⟨u, w, by simp⟩
  · rintro ⟨u, v, rfl⟩
    exact ⟨encode u, encode v, by rw [encode_append, encode_append]⟩

end SamplerPorts.Text
