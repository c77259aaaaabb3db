/-!
Text is a list of characters. A text is cut at a separator into pieces and joined again, and
`join_pieces` says that nothing is lost. The bytes of a text are its UTF-8 form, and reading
bytes gives a text back exactly when they are one (`decode?_encode`).
-/

namespace SamplerPorts

/-- A text, character by character. -/
abbrev Text := List Char

/-- The content of a file, or of a stream, byte by byte. -/
abbrev Bytes := List UInt8

namespace Text

/-- The pieces of a text between the separators; the empty text is one empty piece. -/
def pieces (sep : Char) : Text → List Text
  | [] => [[]]
  | c :: rest =>
      if c = sep then [] :: pieces sep rest
      else match pieces sep rest with
        | [] => [[c]]
        | piece :: more => (c :: piece) :: more

/-- The given texts in order, with `sep` between neighbours. -/
def join (sep : Text) : List Text → Text
  | [] => []
  | [piece] => piece
  | piece :: next :: more => piece ++ sep ++ join sep (next :: more)

theorem pieces_ne_nil (sep : Char) (t : Text) : pieces sep t ≠ [] := by
  cases t with
  | nil => simp [pieces]
  | cons c rest =>
      simp only [pieces]
      split
      · simp
      · split <;> simp

theorem join_cons_of_ne_nil (sep piece : Text) {more : List Text} (h : more ≠ []) :
    join sep (piece :: more) = piece ++ sep ++ join sep more := by
  cases more with
  | nil => exact absurd rfl h
  | cons next more => rfl

/-- Joining the pieces with their separator restores the text. -/
theorem join_pieces (sep : Char) (t : Text) : join [sep] (pieces sep t) = t := by
  induction t with
  | nil => rfl
  | cons c rest ih =>
      simp only [pieces]
      split
      · next h => subst h; simp [join_cons_of_ne_nil _ _ (pieces_ne_nil c rest), ih]
      · cases hp : pieces sep rest with
        | nil => exact absurd hp (pieces_ne_nil sep rest)
        | cons piece more =>
            rw [hp] at ih
            cases more <;> simp_all [join]

theorem not_mem_of_mem_pieces {sep : Char} {t piece : Text} (h : piece ∈ pieces sep t) :
    sep ∉ piece := by
  induction t generalizing piece with
  | nil => simp_all [pieces]
  | cons c rest ih =>
      simp only [pieces] at h
      split at h
      · rcases List.mem_cons.1 h with rfl | h
        · simp
        · exact ih h
      · next hc =>
        split at h
        · simp_all [Ne.symm hc]
        · next first more hp =>
          rcases List.mem_cons.1 h with rfl | h
          · have : sep ∉ first := ih (by simp [hp])
            simp_all [Ne.symm hc]
          · exact ih (by simp [hp, h])

/-- The lines of a text: its pieces between line feeds, so that every other character, carriage
returns included, stays in its line. -/
def lines (t : Text) : List Text := pieces '\n' t

def unlines (ls : List Text) : Text := join ['\n'] ls

theorem unlines_lines (t : Text) : unlines (lines t) = t := join_pieces '\n' t

/-- Whether `part` stands somewhere in the text. -/
def has (part : Text) : Text → Bool
  | [] => part.isEmpty
  | c :: rest => part.isPrefixOf (c :: rest) || has part rest

theorem has_iff {part t : Text} : has part t = true ↔ part <:+: t := by
  induction t with
  | nil => simp [has]
  | cons c rest ih => simp [has, ih, List.infix_cons_iff]

/-- The text after `head`, if the text begins with it. -/
def rest? : (head t : Text) → Option Text
  | [], t => some t
  | _ :: _, [] => none
  | h :: head, c :: t => if h = c then rest? head t else none

theorem rest?_eq_some_iff {head t rest : Text} : rest? head t = some rest ↔ t = head ++ rest := by
  induction head generalizing t with
  | nil => simp [rest?]
  | cons h head ih =>
      cases t with
      | nil => simp [rest?]
      | cons c t =>
          by_cases hc : h = c
          · simp [rest?, hc, ih]
          · simp [rest?, hc, Ne.symm hc]

def ofNat (n : Nat) : Text := Nat.toDigits 10 n

/-- The UTF-8 form of a text. -/
def encode (t : Text) : Bytes := t.flatMap String.utf8EncodeChar

/-- The text that the bytes are the UTF-8 form of, if they are one. -/
def decode? (bytes : Bytes) : Option Text := (bytes.toByteArray.utf8Decode?).map Array.toList

theorem decode?_encode (t : Text) : decode? (encode t) = some t := by
  have h : (encode t).toByteArray = t.utf8Encode := by simp [encode, List.utf8Encode]
  simp [decode?, h, List.utf8Decode?_utf8Encode]

theorem encode_append (s t : Text) : encode (s ++ t) = encode s ++ encode t := by
  simp [encode]

end Text
end SamplerPorts
